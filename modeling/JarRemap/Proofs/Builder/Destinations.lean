import JarRemap.Proofs.Builder.Bounds
import JarRemap.Proofs.Builder.SourceColumn

/-!
# Destinations of earlier sources

The namespaces in use are the destinations of the tree, so the check for collisions keeps every
source of a call away from the columns that earlier calls brought in. Such a column may be the key
of a source, but the names of classes and members in it are never written again, and what a source
adds has no name in it.
-/

namespace JarRemap

/-- A later list of names has the names of an earlier one in their places, and no further name. -/
def Names.NoneAdded (before after : List (Option String)) : Prop :=
  ∃ count, after = before ++ List.replicate count none

namespace Names.NoneAdded

variable {a b c : List (Option String)}

theorem refl (a : List (Option String)) : NoneAdded a a := ⟨0, (List.append_nil a).symm⟩

theorem trans (hab : NoneAdded a b) (hbc : NoneAdded b c) : NoneAdded a c := by
  obtain ⟨m, rfl⟩ := hab
  obtain ⟨n, rfl⟩ := hbc
  exact ⟨m + n, by rw [List.append_assoc, List.replicate_append_replicate]⟩

theorem of_modify {α : Type} {g : α → Option String} {f : α → α} (h : ∀ a, g (f a) = g a)
    (l : List α) (i : Nat) : NoneAdded (l.map g) ((l.modify i f).map g) := by
  rw [ClassMapping.map_modify_of_eq h]
  exact refl _

theorem of_append {α : Type} {g : α → Option String} {a : α} (h : g a = none) (l : List α) :
    NoneAdded (l.map g) ((l ++ [a]).map g) :=
  ⟨1, by rw [List.map_append, List.map_singleton, h, List.replicate_one]⟩

end Names.NoneAdded

namespace ClassMapping

/-- A later form of a class has the names in a column that the earlier form has, and no others:
members keep their places and their names, and new ones, which come behind, have none. -/
structure LeavesColumn (column : Nat) (before after : ClassMapping) : Prop where
  name : after.names.get? column = before.names.get? column
  fields : Names.NoneAdded (before.fields.map (·.names.get? column))
    (after.fields.map (·.names.get? column))
  methods : Names.NoneAdded (before.methods.map (·.names.get? column))
    (after.methods.map (·.names.get? column))

namespace LeavesColumn

variable {column : Nat} {a b c : ClassMapping}

theorem refl (column : Nat) (c : ClassMapping) : LeavesColumn column c c :=
  ⟨rfl, .refl _, .refl _⟩

theorem trans (hab : LeavesColumn column a b) (hbc : LeavesColumn column b c) :
    LeavesColumn column a c :=
  ⟨hbc.name.trans hab.name, hab.fields.trans hbc.fields, hab.methods.trans hbc.methods⟩

end LeavesColumn

end ClassMapping

theorem Names.get?_ofSource {column : Nat} (h : 0 < column) (name : String) :
    (ofSource name).get? column = none :=
  within_ofSource Nat.one_pos name column h

/-- A record leaves every column alone that is neither the first nor one of its destinations. -/
theorem Record.Changes.leavesColumn {v : KeyView} {columns : List Nat} {column : Nat} {r : Record}
    {c c' : ClassMapping} (hpos : 0 < column) (h : column ∉ columns.drop 1)
    (hchange : r.Changes v columns c c') : c.LeavesColumn column c' := by
  cases hchange with
  | skipped => exact .refl column c
  | type => exact ⟨Names.get?_write_of_not_mem h _ _, .refl _, .refl _⟩
  | field => exact ⟨rfl, .of_modify (fun f => Names.get?_write_of_not_mem h f.names r) _ _, .refl _⟩
  | newField =>
    refine ⟨rfl, .of_append ?_ _, .refl _⟩
    exact (Names.get?_write_of_not_mem h _ r).trans (Names.get?_ofSource hpos _)
  | method => exact ⟨rfl, .refl _, .of_modify (fun m => Names.get?_write_of_not_mem h m.names r) _ _⟩
  | newMethod =>
    refine ⟨rfl, .refl _, .of_append ?_ _⟩
    exact (Names.get?_write_of_not_mem h _ r).trans (Names.get?_ofSource hpos _)
  | @param _ _ _ index =>
    -- a parameter has names of its own; those of its method stay
    have hnames : ∀ m : MethodMapping,
        (m.annotateParam columns index r).names.get? column = m.names.get? column := fun _ => rfl
    exact ⟨rfl, .refl _, .of_modify hnames _ _⟩
  | newParam =>
    refine ⟨rfl, .refl _, .of_append ?_ _⟩
    exact Names.get?_ofSource hpos _

namespace MappingTree

/-- Every class of an earlier tree has in a later one the same names in a column, as have its fields
and methods, and what was added has no name there. -/
structure LeavesColumn (column : Nat) (before after : MappingTree) : Prop where
  kept : ∀ name c, before.class? name = some c →
    ∃ c', after.class? name = some c' ∧ c.LeavesColumn column c'
  added : ∀ name c', before.class? name = none → after.class? name = some c' →
    (ClassMapping.ofSource name).LeavesColumn column c'

namespace LeavesColumn

variable {column : Nat} {a b c : MappingTree}

theorem refl (column : Nat) (t : MappingTree) : LeavesColumn column t t where
  kept _ c hc := ⟨c, hc, .refl column c⟩
  added name c' hnone hc' := by
    rw [hnone] at hc'
    cases hc'

theorem trans (hab : LeavesColumn column a b) (hbc : LeavesColumn column b c) :
    LeavesColumn column a c where
  kept name x hx := by
    obtain ⟨y, hy, hxy⟩ := hab.kept name x hx
    obtain ⟨z, hz, hyz⟩ := hbc.kept name y hy
    exact ⟨z, hz, hxy.trans hyz⟩
  added name z hnone hz := by
    cases hy : b.class? name with
    | none => exact hbc.added name z hy hz
    | some y =>
      obtain ⟨z', hz', hyz⟩ := hbc.kept name y hy
      cases hz.symm.trans hz'
      exact (hab.added name y hnone hy).trans hyz

end LeavesColumn

/-- A merge leaves every column alone that is neither the first nor one of its destinations. -/
theorem leavesColumn_merge {t t' : MappingTree} {s : Source} {column : Nat} (hpos : 0 < column)
    (hcolumn : column ∉ (t.columnsOf s).drop 1) (h : t.merge s = .ok t') :
    t.LeavesColumn column t' := by
  obtain ⟨key, -, rfl⟩ := merge_eq_ok h
  have hchange : ∀ (r : Record) (c : ClassMapping),
      c.LeavesColumn column (r.change (t.keyView key) (t.columnsOf s) c) :=
    fun r c => (r.changes_change _ _ c).leavesColumn hpos hcolumn
  constructor
  · intro name c hc
    exact foldl_apply_kept (R := ClassMapping.LeavesColumn column) (.refl column)
      (fun _ _ _ => .trans) (fun r _ c => hchange r c) hc
  · intro name c' hnone hc'
    refine foldl_apply_invariant (P := fun name c => t.class? name = none →
      (ClassMapping.ofSource name).LeavesColumn column c) ?_ ?_ ?_ name c' hc' hnone
    · exact fun name _ => .refl column _
    · exact fun r _ name c hc hnone => (hc hnone).trans (hchange r c)
    · intro name c hc hnone
      cases hnone.symm.trans hc

theorem leavesColumn_connectLineage {column : Nat} {before t : MappingTree}
    {lineage : List String} :
    before.LeavesColumn column (Builder.connectLineage t lineage) ↔
      before.LeavesColumn column t := by
  have hsame : (Builder.connectLineage t lineage).class? = t.class? := by
    funext name
    rw [class?, class?, Builder.classes_connectLineage]
  constructor
  · rintro ⟨hkept, hadded⟩
    rw [hsame] at hkept hadded
    exact ⟨hkept, hadded⟩
  · rintro ⟨hkept, hadded⟩
    rw [← hsame] at hkept hadded
    exact ⟨hkept, hadded⟩

theorem prefix_namespacesWith (t : MappingTree) (s : Source) :
    t.namespaces <+: t.namespacesWith s := by
  refine List.IsPrefix.trans ?_ (prefix_addAllNew (t.known s) s.namespaces)
  unfold known
  split
  · next h => simp [List.isEmpty_iff.1 h]
  · exact List.prefix_refl _

/-- A source whose destinations are none of the first namespaces of a tree writes to none of their
columns. -/
theorem not_mem_columnsOf {t : MappingTree} {s : Source} {earlier : List String} {column : Nat}
    (hbefore : earlier <+: t.namespaces) (hpos : 0 < column) (hlt : column < earlier.length)
    (hfree : ∀ name ∈ s.destinations, name ∉ earlier.tail) :
    column ∉ (t.columnsOf s).drop 1 := by
  change column ∉ s.destinations.map fun name => (t.namespacesWith s).idxOf name
  intro hmem
  obtain ⟨name, hname, hidx⟩ := List.mem_map.1 hmem
  have hwith : name ∈ t.namespacesWith s :=
    mem_addAllNew.2 (.inr (List.mem_cons_of_mem _ hname))
  have hthere : (t.namespacesWith s)[column]? = some name := by
    rw [← hidx, List.getElem?_eq_getElem (List.idxOf_lt_length_of_mem hwith),
      List.getElem_idxOf]
  have hearlier : earlier[column]? = some name := by
    obtain ⟨rest, hrest⟩ := hbefore.trans (t.prefix_namespacesWith s)
    rw [← hthere, ← hrest, List.getElem?_append_left hlt]
  refine hfree name hname (List.mem_of_getElem? (i := column - 1) ?_)
  rw [List.getElem?_tail, Nat.sub_add_cancel hpos, hearlier]

end MappingTree

namespace Builder

variable {b next : Builder} {c : Call}

/-- No source of a chain that goes through has a destination that is in use. -/
theorem collisions_sourcesOf {a : Adaptation} {texts : List MappingText} {t t' : MappingTree}
    (h : texts.foldlM (b.mergeText a) t = .ok t') :
    ∀ p ∈ b.sourcesOf a t texts, b.collisions p.2.destinations = [] := by
  induction texts generalizing t with
  | nil => exact List.forall_mem_nil _
  | cons m texts ih =>
    rw [List.foldlM_cons] at h
    cases hm : b.mergeText a t m with
    | error e =>
      rw [hm] at h
      cases h
    | ok merged =>
      rw [hm] at h
      obtain ⟨s, _, hread, hfree, -, -⟩ := mergeText_eq_ok hm
      rw [sourcesOf, hread, hm]
      exact List.forall_mem_cons.2 ⟨hfree, ih h⟩

/-- No source that a call merges has a destination that was in use before the call. -/
theorem Success.collisions_sources (h : Success b c next) :
    ∀ p ∈ c.sources b, b.collisions p.2.destinations = [] := by
  cases h with
  | side => exact List.forall_mem_nil _
  | @merge c input texts t source _ _ staged =>
    rw [Call.sources, source]
    unfold stage at staged
    cases hchain : texts.foldlM (b.mergeText input.adaptation) b.tree with
    | error e =>
      rw [hchain] at staged
      cases staged
    | ok t' => exact collisions_sourcesOf hchain
  | freeze => exact List.forall_mem_nil _

/-- The namespaces in use are the destinations of the tree. -/
structure Guarded (b : Builder) : Prop where
  nodup : b.tree.namespaces.Nodup
  used : b.used = b.tree.destinations

/-- A call only adds namespaces, each of them once. -/
theorem Success.namespaces (h : Success b c next) (hb : b.tree.namespaces.Nodup) :
    b.tree.namespaces <+: next.tree.namespaces ∧ next.tree.namespaces.Nodup := by
  refine h.tree_invariant (P := fun t => b.tree.namespaces <+: t.namespaces ∧ t.namespaces.Nodup)
    ?_ (fun _ _ ht => ht) ⟨List.prefix_refl _, hb⟩
  rintro p _ merged ⟨hbefore, hnodup⟩ hmerge
  obtain ⟨_, -, rfl⟩ := MappingTree.merge_eq_ok hmerge
  rw [namespaces_connectLineage]
  exact ⟨hbefore.trans (MappingTree.prefix_namespacesWith _ _),
    nodup_addAllNew (MappingTree.nodup_known hnodup _) _⟩

/-- What a commit puts in use is what the tree gained. -/
theorem Guarded.commit (hb : b.Guarded) {t : MappingTree}
    (hbefore : b.tree.namespaces <+: t.namespaces) (hnodup : t.namespaces.Nodup) :
    (b.commit t).Guarded := by
  refine ⟨hnodup, ?_⟩
  change addAllNew b.used (b.added t) = t.destinations
  have hgrown : ∃ gained, t.destinations = b.tree.destinations ++ gained := by
    obtain ⟨gained, hgained⟩ := hbefore
    unfold MappingTree.destinations
    rw [← hgained]
    cases b.tree.namespaces with
    | nil => exact ⟨gained.tail, rfl⟩
    | cons first rest => exact ⟨gained, rfl⟩
  obtain ⟨gained, hgained⟩ := hgrown
  have hapart : (b.tree.destinations ++ gained).Nodup := by
    rw [← hgained]
    exact hnodup.tail
  have hadded : b.added t = gained := by
    rw [added, hgained, List.filter_append]
    have hold : b.tree.destinations.filter (fun name => !b.tree.destinations.contains name) = [] := by
      simp
    have hnew : gained.filter (fun name => !b.tree.destinations.contains name) = gained := by
      rw [List.filter_eq_self]
      intro name hname
      have hnot : name ∉ b.tree.destinations :=
        fun hold => (List.nodup_append.1 hapart).2.2 name hold name hname rfl
      simpa using hnot
    rw [hold, hnew, List.nil_append]
  rw [hadded, hb.used, addAllNew_eq_append hapart, hgained]

theorem guarded_run (calls : List Call) : (run {} calls).Guarded := by
  refine run_invariant (P := Guarded) ?_ ⟨List.nodup_nil, rfl⟩ calls
  intro b c next hb hsuccess
  obtain ⟨hbefore, hnodup⟩ := hsuccess.namespaces hb.nodup
  cases hsuccess with
  | side => exact ⟨hb.nodup, hb.used⟩
  | merge => exact hb.commit hbefore hnodup
  | freeze => exact ⟨hb.nodup, hb.used⟩

/-- A call that succeeds leaves the columns of all earlier destinations alone. -/
theorem Success.leavesColumn (h : Success b c next) (hb : b.Guarded) {column : Nat}
    (hpos : 0 < column) (hlt : column < b.tree.namespaces.length) :
    b.tree.LeavesColumn column next.tree := by
  have hsources := h.collisions_sources
  refine (h.tree_invariant (P := fun t =>
    b.tree.namespaces <+: t.namespaces ∧ b.tree.LeavesColumn column t) ?_
    (fun _ _ ht => ⟨ht.1, ht.2.kept, ht.2.added⟩) ⟨List.prefix_refl _, .refl column _⟩).2
  rintro p hp merged ⟨hbefore, hleaves⟩ hmerge
  have hfree : ∀ name ∈ p.2.destinations, name ∉ b.tree.namespaces.tail := by
    intro name hname hold
    have hused : name ∈ b.collisions p.2.destinations := by
      rw [collisions, List.mem_filter, List.contains_iff_mem, hb.used]
      exact ⟨hname, hold⟩
    rw [hsources p hp] at hused
    cases hused
  have hcolumn := MappingTree.not_mem_columnsOf hbefore hpos hlt hfree
  refine ⟨?_, ?_⟩
  · obtain ⟨_, -, rfl⟩ := MappingTree.merge_eq_ok hmerge
    rw [namespaces_connectLineage]
    exact hbefore.trans (MappingTree.prefix_namespacesWith _ _)
  · rw [MappingTree.leavesColumn_connectLineage]
    exact hleaves.trans (MappingTree.leavesColumn_merge hpos hcolumn hmerge)

/-- In every state a builder can get into, the namespaces in use are the destinations of the tree,
in their order. A merge that succeeds puts its namespaces behind those of the tree and changes, adds
or removes no name of a class, a field or a method in a destination that was there before. -/
theorem destinations_are_guarded (calls : List Call) :
    (run {} calls).used = (run {} calls).tree.destinations ∧
    ∀ c, c.ingests = true → ((run {} calls).step c).2 = none →
      (run {} calls).tree.namespaces <+: ((run {} calls).step c).1.tree.namespaces ∧
      ∀ column, 0 < column → column < (run {} calls).tree.namespaces.length →
        (run {} calls).tree.LeavesColumn column ((run {} calls).step c).1.tree := by
  have hguarded := guarded_run calls
  refine ⟨hguarded.used, fun c _ hok => ?_⟩
  have hsuccess := success_of_step hok
  refine ⟨(hsuccess.namespaces hguarded.nodup).1, fun column hpos hlt => ?_⟩
  exact hsuccess.leavesColumn hguarded hpos hlt

open Sample in
/-- A source that is keyed by an earlier destination adds its own names beside the names there. -/
theorem destinations_are_guarded_layered :
    (run {} [first]).used = ["searge"] ∧
    ((run {} [first]).step layered).2 = none ∧
    ((run {} [first, layered]).tree.class? "a").map (·.names) =
      some [some "a", some "A", some "Foo"] ∧
    (run {} [first]).tree.LeavesColumn 1 ((run {} [first]).step layered).1.tree := by
  have hok : ((run {} [first]).step layered).2 = none := by cbv
  have hdestinations : (run {} [first]).tree.destinations = ["searge"] := by cbv
  obtain ⟨hused, hingest⟩ := destinations_are_guarded [first]
  refine ⟨hused.trans hdestinations, hok, by cbv, ?_⟩
  exact (hingest layered rfl hok).2 1 Nat.one_pos (by cbv)

end Builder

end JarRemap
