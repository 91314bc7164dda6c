import Mathlib
import JarRemap.Proofs.Builder.Sources
import JarRemap.Proofs.Merge.Record

/-!
# The source column

Classes are stored under the name they were first seen with. That this stays their source name is a
matter of the destinations a source lists: the namespaces in use are checked for collisions, but the
source namespace of the tree is not among them, and a source that lists it as a destination writes
into the first column. A source that does not list it never changes a source name.
-/

namespace JarRemap

namespace MappingTree

/-- The source namespace of a tree once a source is merged into it. -/
def sourceNamespace (t : MappingTree) (s : Source) : String := t.namespaces.headD s.key

/-- Whether a source leaves the source namespace of a tree out of its destinations. -/
def sparesSource (t : MappingTree) (s : Source) : Bool :=
  !s.destinations.contains (t.sourceNamespace s)

/-- Every class is stored under its source name. -/
def Keyed (t : MappingTree) : Prop :=
  ∀ name c, t.class? name = some c → c.names.get? 0 = some name

/-- Every class of an earlier tree is in a later one, with the source names that it and its members
had. -/
def SourcesKept (before after : MappingTree) : Prop :=
  ∀ name c, before.class? name = some c →
    ∃ c', after.class? name = some c' ∧ c.KeepsColumn 0 c'

theorem SourcesKept.refl (t : MappingTree) : SourcesKept t t :=
  fun _ c hc => ⟨c, hc, .refl 0 c⟩

theorem SourcesKept.trans {a b c : MappingTree} (hab : SourcesKept a b) (hbc : SourcesKept b c) :
    SourcesKept a c := by
  intro name x hx
  obtain ⟨y, hy, hxy⟩ := hab name x hx
  obtain ⟨z, hz, hyz⟩ := hbc name y hy
  exact ⟨z, hz, hxy.trans hyz⟩

/-- In a keyed tree a class is found under its source name. -/
theorem Keyed.class?_source {t : MappingTree} (h : t.Keyed) {c : ClassMapping}
    (hc : c ∈ t.classes.values) : t.class? c.names.source = some c := by
  obtain ⟨name, hname⟩ := OrderedMap.mem_values_iff.1 hc
  have hsource : c.names.source = name := by rw [Names.source, h name c hname, Option.getD_some]
  rw [hsource]
  exact hname

/-- In a keyed tree no two classes have one source name. -/
theorem Keyed.nodup_sources {t : MappingTree} (h : t.Keyed) :
    (t.classes.values.map (·.names.source)).Nodup := by
  have hkeys : t.classes.values.map (·.names.source) = t.classes.entries.map Prod.fst := by
    rw [OrderedMap.values, List.map_map]
    refine List.map_congr_left fun e he => ?_
    have hname := h e.1 e.2 (OrderedMap.get?_eq_some_iff.2 he)
    simp only [Function.comp_apply, Names.source, hname, Option.getD_some]
  rw [hkeys]
  exact t.classes.nodup

theorem exists_known_eq_cons (t : MappingTree) (s : Source) :
    ∃ rest, t.known s = t.sourceNamespace s :: rest := by
  unfold known sourceNamespace
  cases t.namespaces with
  | nil => exact ⟨[], rfl⟩
  | cons first rest => exact ⟨rest, rfl⟩

/-- A namespace is the first column of a merged tree only if it is the source namespace. -/
theorem idxOf_namespacesWith_eq_zero_iff (t : MappingTree) (s : Source) (name : String) :
    (t.namespacesWith s).idxOf name = 0 ↔ name = t.sourceNamespace s := by
  obtain ⟨rest, hrest⟩ := exists_known_eq_cons t s
  obtain ⟨more, hmore⟩ := prefix_addAllNew (t.known s) s.namespaces
  rw [namespacesWith, ← hmore, hrest, List.cons_append, List.idxOf_cons]
  by_cases h : name = t.sourceNamespace s
  · subst h
    simp
  · have hne : (t.sourceNamespace s == name) = false := beq_false_of_ne fun e => h e.symm
    simp [hne, h]

theorem zero_not_mem_columnsOf {t : MappingTree} {s : Source} (h : t.sparesSource s = true) :
    0 ∉ (t.columnsOf s).drop 1 := by
  change 0 ∉ s.destinations.map fun name => (t.namespacesWith s).idxOf name
  intro hmem
  obtain ⟨name, hname, hzero⟩ := List.mem_map.1 hmem
  rw [idxOf_namespacesWith_eq_zero_iff] at hzero
  subst hzero
  simp [sparesSource, hname] at h

/-- A source that spares the source namespace keeps every source name, and every class it adds is
stored under its own. -/
theorem merge_keeps_sources {t t' : MappingTree} {s : Source} (hspares : t.sparesSource s = true)
    (hkeyed : t.Keyed) (h : t.merge s = .ok t') : t'.Keyed ∧ SourcesKept t t' := by
  obtain ⟨column, -, rfl⟩ := merge_eq_ok h
  have hzero := zero_not_mem_columnsOf hspares
  constructor
  · refine foldl_apply_invariant (P := fun name c => c.names.get? 0 = some name)
      (fun _ => rfl) ?_ hkeyed
    intro r _ name c hc
    rw [(r.keepsColumn_change hzero c).name, hc]
  · intro name c hc
    exact foldl_apply_kept (R := ClassMapping.KeepsColumn 0) (.refl 0) (fun _ _ _ => .trans)
      (fun r _ c => r.keepsColumn_change hzero c) hc

/-- Whether the records of a source can speak of a class of a tree, or add one: the source is keyed
by the source namespace, or by a namespace in which some class has a name. -/
def InReach (t : MappingTree) (s : Source) : Prop :=
  ∃ column, (t.known s).idxOf? s.key = some column ∧
    (column = 0 ∨ ∃ c ∈ t.classes.values, (c.names.get? column).isSome)

/-- In reach, some class can be spoken of by some name. -/
theorem exists_class?_keyView {t : MappingTree} {column : Nat}
    (h : column = 0 ∨ ∃ c ∈ t.classes.values, (c.names.get? column).isSome) :
    ∃ key name, (t.keyView column).class? key = some name := by
  by_cases hcolumn : column = 0
  · subst hcolumn
    exact ⟨"", "", rfl⟩
  · obtain ⟨c, hc, hname⟩ := h.resolve_left hcolumn
    obtain ⟨key, hkey⟩ := Option.isSome_iff_exists.1 hname
    have hcreates : (t.keyView column).creates = false := beq_false_of_ne hcolumn
    have hfound : ((t.sourceNames column).get? key).isSome := by
      refine OrderedMap.isSome_get?_ofList (v := c.names.source) ?_
      exact List.mem_filterMap.2 ⟨c, hc, by rw [hkey]; rfl⟩
    obtain ⟨name, hname⟩ := Option.isSome_iff_exists.1 hfound
    refine ⟨key, name, ?_⟩
    rw [KeyView.class?, hcreates, if_neg Bool.false_ne_true, keyView]
    simpa only [if_neg hcolumn] using hname

/-- Out of reach, no class can be spoken of. -/
theorem class?_keyView_eq_none {t : MappingTree} {column : Nat}
    (h : ¬ (column = 0 ∨ ∃ c ∈ t.classes.values, (c.names.get? column).isSome)) (key : String) :
    (t.keyView column).class? key = none := by
  rw [not_or] at h
  have hcreates : (t.keyView column).creates = false := beq_false_of_ne h.1
  rw [KeyView.class?, hcreates, if_neg Bool.false_ne_true, keyView]
  simp only [if_neg h.1]
  cases hname : (t.sourceNames column).get? key with
  | none => rfl
  | some name =>
    have hmem := OrderedMap.mem_of_get?_ofList hname
    obtain ⟨c, hc, hpair⟩ := List.mem_filterMap.1 hmem
    obtain ⟨found, hfound, -⟩ := Option.map_eq_some_iff.1 hpair
    exact absurd ⟨c, hc, by rw [hfound]; rfl⟩ h.2

/-- The record that gives a class another source name, in a source that lists the source namespace
as a destination. -/
def renamingRecord (t : MappingTree) (s : Source) (key renamed : String) : Record where
  element := .type
  names := some key ::
    s.destinations.map fun name => if name = t.sourceNamespace s then some renamed else none

theorem get?_zero_annotate_renamingRecord {t : MappingTree} {s : Source}
    (hlists : t.sparesSource s = false) (key renamed : String) (c : ClassMapping) :
    (c.annotate (t.columnsOf s) (t.renamingRecord s key renamed)).names.get? 0 = some renamed := by
  have hmem : t.sourceNamespace s ∈ s.destinations := by simpa [sparesSource] using hlists
  have hentries : ((t.columnsOf s).zip (t.renamingRecord s key renamed).names).drop 1 =
      s.destinations.map fun name => ((t.namespacesWith s).idxOf name,
        if name = t.sourceNamespace s then some renamed else none) := by
    change (s.destinations.map _).zip (s.destinations.map _) = _
    rw [List.zip_map']
  rw [ClassMapping.annotate]
  dsimp only
  rw [Names.get?_write, hentries, Names.lastFor_eq_some renamed, Option.some_or]
  · refine List.mem_map.2 ⟨_, hmem, ?_⟩
    rw [(idxOf_namespacesWith_eq_zero_iff t s _).2 rfl, if_pos rfl]
  · intro other hother
    obtain ⟨name, -, hpair⟩ := List.mem_map.1 hother
    split at hpair
    · exact (Option.some.inj (Prod.mk.inj hpair).2).symm
    · cases (Prod.mk.inj hpair).2

/-- A source that can reach a class, and never harms one, spares the source namespace. -/
theorem sparesSource_of_merges_keep {t : MappingTree} {s : Source} (hreach : t.InReach s)
    (hall : ∀ records t', t.merge { s with records } = .ok t' → t'.Keyed) :
    t.sparesSource s = true := by
  obtain ⟨column, hcolumn, hreach⟩ := hreach
  by_contra hspares
  obtain ⟨key, name, hname⟩ := exists_class?_keyView hreach
  have hlists : t.sparesSource s = false := by simpa using hspares
  -- one record that names the class anew in the source namespace is enough
  let r := t.renamingRecord s key (name.push 'x')
  have hmerge : t.merge { s with records := [r] } = .ok { t with
      namespaces := t.namespacesWith s
      classes := apply (t.keyView column) (t.columnsOf s) t.classes r } := by
    have hcolumn' : (t.known { s with records := [r] }).idxOf? s.key = some column := hcolumn
    rw [merge, hcolumn']
    rfl
  have howner : r.owner? (t.keyView column) = some name := hname
  have hfound := hall [r] _ hmerge name
  rw [class?] at hfound
  dsimp only at hfound
  rw [get?_apply, if_pos howner, ownerIn] at hfound
  change ∀ c, ((t.classes.get? name).or (some (.ofSource name))).map _ = some c → _ at hfound
  rw [Option.or_some, Option.map_some] at hfound
  have hnames := hfound _ rfl
  change (ClassMapping.annotate _ _ _).names.get? 0 = _ at hnames
  rw [get?_zero_annotate_renamingRecord hlists] at hnames
  have hlength := congrArg String.length (Option.some.inj hnames)
  simp at hlength

/-- A source whose records can reach no class changes none. -/
theorem merge_keeps_sources_of_not_inReach {t t' : MappingTree} {s : Source} (hkeyed : t.Keyed)
    (hreach : ¬ t.InReach s) (h : t.merge s = .ok t') : t'.Keyed ∧ SourcesKept t t' := by
  obtain ⟨column, hcolumn, rfl⟩ := merge_eq_ok h
  have hnone := class?_keyView_eq_none fun hc => hreach ⟨column, hcolumn, hc⟩
  have howner : ∀ r ∈ s.records, ∀ name, r.owner? (t.keyView column) ≠ some name := by
    intro r _ name
    unfold Record.owner?
    cases r.element with
    | type => cases r.key? <;> simp [hnone]
    | field owner desc => simp [hnone]
    | method owner desc => simp [hnone]
    | param owner method desc index => simp [hnone]
  have hsame : ∀ name, (s.records.foldl (apply (t.keyView column) (t.columnsOf s))
      t.classes).get? name = t.classes.get? name :=
    fun name => get?_foldl_apply_of_owner?_ne fun r hr => howner r hr name
  exact ⟨fun name c hc => hkeyed name c ((hsame name).symm.trans hc),
    fun name c hc => ⟨c, (hsame name).trans hc, .refl 0 c⟩⟩

/-- The header of a source decides: all sources with a header keep every source name and leave every
class under its own, if and only if the header spares the source namespace or its records cannot
reach a class. -/
theorem all_merges_keep_sources_iff {t : MappingTree} (hkeyed : t.Keyed) (s : Source) :
    (∀ records t', t.merge { s with records } = .ok t' → t'.Keyed ∧ SourcesKept t t') ↔
      t.sparesSource s = true ∨ ¬ t.InReach s := by
  constructor
  · intro hall
    by_cases hreach : t.InReach s
    · exact .inl (sparesSource_of_merges_keep hreach fun records t' h => (hall records t' h).1)
    · exact .inr hreach
  · rintro (hspares | hreach) records t' h
    · exact merge_keeps_sources (s := { s with records }) hspares hkeyed h
    · exact merge_keeps_sources_of_not_inReach (s := { s with records }) hkeyed hreach h

end MappingTree

namespace Builder

/-- Whether every source that a call merges spares the source namespace. -/
def Call.sparesSource (b : Builder) (c : Call) : Bool :=
  (c.sources b).all fun p => p.1.sparesSource p.2

/-- Whether every source of a run spares the source namespace. -/
def sparesSource : Builder → List Call → Bool
  | _, [] => true
  | b, c :: calls => c.sparesSource b && (b.step c).1.sparesSource calls

theorem sparesSource_append (b : Builder) (calls more : List Call) :
    b.sparesSource (calls ++ more) = (b.sparesSource calls && (b.run calls).sparesSource more) := by
  induction calls generalizing b with
  | nil => rfl
  | cons c calls ih => rw [List.cons_append, sparesSource, ih, sparesSource, run_cons, Bool.and_assoc]

theorem keyed_connectLineage {t : MappingTree} {lineage : List String} :
    (connectLineage t lineage).Keyed ↔ t.Keyed := by
  simp only [MappingTree.Keyed, MappingTree.class?, classes_connectLineage]

theorem sourcesKept_connectLineage {before t : MappingTree} {lineage : List String} :
    before.SourcesKept (connectLineage t lineage) ↔ before.SourcesKept t := by
  simp only [MappingTree.SourcesKept, MappingTree.class?, classes_connectLineage]

/-- One call keeps a tree keyed and its source names as they are. -/
theorem step_keeps_sources {b : Builder} {c : Call} (hspares : c.sparesSource b = true)
    (hkeyed : b.tree.Keyed) :
    (b.step c).1.tree.Keyed ∧ b.tree.SourcesKept (b.step c).1.tree := by
  rcases step_cases b c with h | h
  · rw [h]
    exact ⟨hkeyed, .refl _⟩
  · refine h.tree_invariant (P := fun t => t.Keyed ∧ b.tree.SourcesKept t) ?_ ?_ ⟨hkeyed, .refl _⟩
    · rintro p hp merged ⟨hold, hkept⟩ hmerge
      have hp' : p.1.sparesSource p.2 = true := List.all_eq_true.1 hspares p hp
      obtain ⟨hnew, hkept'⟩ := MappingTree.merge_keeps_sources hp' hold hmerge
      exact ⟨keyed_connectLineage.2 hnew, sourcesKept_connectLineage.2 (hkept.trans hkept')⟩
    · exact fun t name ht => ht

theorem run_keyed {b : Builder} (hkeyed : b.tree.Keyed) {calls : List Call}
    (hspares : b.sparesSource calls = true) : (b.run calls).tree.Keyed := by
  induction calls generalizing b with
  | nil => exact hkeyed
  | cons c calls ih =>
    rw [sparesSource, Bool.and_eq_true] at hspares
    exact ih (step_keeps_sources hspares.1 hkeyed).1 hspares.2

theorem keyed_empty : ({} : Builder).tree.Keyed := by
  intro name c h
  cases h

/-- Along every run whose sources spare the source namespace, each class is found under its own
source name, no two classes share one, and no call changes the source name of a class, a field or a
method. The condition is exact: if a source does not spare the source namespace, and its records can
reach a class, then some records under its header break the law at once. -/
theorem source_column_is_immutable_iff (calls : List Call) (t : MappingTree) (s : Source) :
    (({} : Builder).sparesSource calls = true →
      (∀ c ∈ (run {} calls).tree.classes.values,
        (run {} calls).tree.class? c.names.source = some c) ∧
      ((run {} calls).tree.classes.values.map (·.names.source)).Nodup ∧
      ∀ c, ({} : Builder).sparesSource (calls ++ [c]) = true →
        (run {} calls).tree.SourcesKept (run {} (calls ++ [c])).tree) ∧
    (t.Keyed →
      ((∀ records t', t.merge { s with records } = .ok t' → t'.Keyed ∧ t.SourcesKept t') ↔
        t.sparesSource s = true ∨ ¬ t.InReach s)) := by
  constructor
  · intro hcalls
    have hkeyed := run_keyed keyed_empty hcalls
    refine ⟨fun c hc => hkeyed.class?_source hc, hkeyed.nodup_sources, ?_⟩
    intro c hc
    rw [sparesSource_append, sparesSource, Bool.and_eq_true, Bool.and_eq_true] at hc
    rw [run_append]
    exact (step_keeps_sources hc.2.1 hkeyed).2
  · exact fun hkeyed => MappingTree.all_merges_keep_sources_iff hkeyed s

namespace Sample

/-- A source that only annotates: it is keyed by the destination of the first. -/
def layered : Call :=
  .content "second.tiny" (.bytes (bytesOf "v1\tsearge\tmcp\nCLASS\tA\tFoo\n")) (keyedBy "searge")

/-- A source that is keyed by the destination of the first and lists its key as a destination. -/
def reversed : Call :=
  .content "second.tiny" (.bytes (bytesOf "v1\tsearge\tofficial\nCLASS\tA\tb\n"))
    (keyedBy "searge")

end Sample

open Sample in
theorem source_column_is_immutable_iff_layered :
    (run {} [first]).tree.class? "a" = some { names := [some "a", some "A"] } ∧
    (∀ c ∈ (run {} [first]).tree.classes.values,
      (run {} [first]).tree.class? c.names.source = some c) ∧
    (run {} [first]).tree.SourcesKept (run {} [first, layered]).tree ∧
    ¬ ∀ records t', (run {} [first]).tree.merge ⟨"searge", ["official"], [], records⟩ = .ok t' →
      t'.Keyed ∧ (run {} [first]).tree.SourcesKept t' := by
  have hfirst : ({} : Builder).sparesSource [first] = true := by cbv
  have hboth : ({} : Builder).sparesSource ([first] ++ [layered]) = true := by cbv
  have hclasses : (run {} [first]).tree.classes.values = [{ names := [some "a", some "A"] }] := by
    cbv
  obtain ⟨hruns, hheader⟩ := source_column_is_immutable_iff [first] (run {} [first]).tree
    ⟨"searge", ["official"], [], []⟩
  obtain ⟨hfound, -, hkept⟩ := hruns hfirst
  refine ⟨by cbv, hfound, hkept layered hboth, ?_⟩
  have hlists : (run {} [first]).tree.sparesSource ⟨"searge", ["official"], [], []⟩ = false := by
    cbv
  have hreach : (run {} [first]).tree.InReach ⟨"searge", ["official"], [], []⟩ := by
    refine ⟨1, by cbv, .inr ⟨{ names := [some "a", some "A"] }, ?_, rfl⟩⟩
    rw [hclasses]
    exact List.mem_singleton_self _
  rw [hheader (run_keyed keyed_empty hfirst), hlists]
  rintro (hspares | hfar)
  · cases hspares
  · exact hfar hreach

open Sample in
/-- A source that lists the source namespace as a destination is merged, gives the class `a` the
source name `b`, and leaves it stored under `a`. -/
theorem source_column_overwritten :
    ((run {} [first]).step reversed).2 = none ∧
    ((run {} [first]).tree.class? "a").map (·.names) = some [some "a", some "A"] ∧
    ((run {} [first, reversed]).tree.class? "a").map (·.names) = some [some "b", some "A"] ∧
    (run {} [first, reversed]).tree.class? "b" = none := by
  refine ⟨by cbv, by cbv, by cbv, by cbv⟩

end Builder

end JarRemap
