import JarRemap.Proofs.Builder.MergedTwice
import JarRemap.Proofs.Merge.Annotate

/-!
# Sources that are keyed by a destination

A source that is keyed by a destination of the tree, and spares the source namespace, only annotates:
the tree has the same classes and members as before, and of their names only those of the
destinations of the source are new. The records are applied one after the other. Which class a
record speaks of is told by the tree before the merge, but its member is looked up in the tree as
the records before left it.
-/

namespace JarRemap

namespace MappingTree

/-- The trees that merges, connections and marks make of the empty one. -/
inductive Reachable : MappingTree → Prop where
  | empty : Reachable {}
  | merge {t t' : MappingTree} {s : Source} (h : Reachable t) (hmerge : t.merge s = .ok t') :
      Reachable t'
  | connect {t : MappingTree} (h : Reachable t) (a b : String) : Reachable (t.connect a b)
  | declareNamed {t : MappingTree} (h : Reachable t) (name : String) : Reachable (t.declareNamed name)

variable {t t' : MappingTree} {s : Source}

theorem Reachable.bounded (h : t.Reachable) : t.Bounded := by
  induction h with
  | empty => exact ⟨List.nodup_nil, fun name c hc => by cases hc⟩
  | merge _ hmerge ih => exact ih.merge hmerge
  | connect _ a b ih => exact bounded_congr (classes_connect _ a b) (namespaces_connect _ a b) ih
  | declareNamed _ name ih =>
    exact bounded_congr (classes_declareNamed _ name) (namespaces_declareNamed _ name) ih

theorem Reachable.nodup (h : t.Reachable) : t.namespaces.Nodup := h.bounded.nodup

theorem Reachable.sourced (h : t.Reachable) : ∀ name c, t.class? name = some c → c.Sourced := by
  induction h with
  | empty => exact fun name c hc => by cases hc
  | merge _ hmerge ih =>
    obtain ⟨column, -, rfl⟩ := merge_eq_ok hmerge
    refine foldl_apply_invariant (P := fun _ c => c.Sourced)
      (fun _ => ⟨List.forall_mem_nil _, List.forall_mem_nil _⟩) ?_ ih
    exact fun r _ name c hc => (r.changes_change _ _ c).sourced hc
  | @connect t _ a b ih =>
    intro name c hc
    rw [class?, classes_connect] at hc
    exact ih name c hc
  | declareNamed _ name ih => exact ih

/-- How a source speaks of the elements of a tree. -/
def viewOf (t : MappingTree) (s : Source) : KeyView := t.keyView ((t.known s).idxOf s.key)

/-- The columns that the destinations of a source have once it is merged. -/
def destinationColumns (t : MappingTree) (s : Source) : List Nat := (t.columnsOf s).drop 1

/-- A tree after a source that only annotates it. The source column is not among those that the
source writes to. -/
structure AnnotatedBy (t : MappingTree) (s : Source) (t' : MappingTree) : Prop where
  source : 0 ∉ t.destinationColumns s
  classes : Annotates (t.destinationColumns s) t.classes t'.classes
  namespaces : t'.namespaces = t.namespacesWith s
  named : t'.named = t.named
  graph : t'.graph = t.graph

/-- A destination of a tree without repeated namespaces has a column behind the first. -/
theorem idxOf_ne_zero_of_mem_destinations (hnodup : t.namespaces.Nodup) {name : String}
    (h : name ∈ t.destinations) : t.namespaces.idxOf name ≠ 0 := by
  unfold destinations at h
  cases hnamespaces : t.namespaces with
  | nil =>
    rw [hnamespaces] at h
    cases h
  | cons first rest =>
    rw [hnamespaces] at h hnodup
    have hne : first ≠ name := by
      rintro rfl
      exact (List.nodup_cons.1 hnodup).1 h
    rw [List.idxOf_cons_ne _ hne]
    exact Nat.succ_ne_zero _

theorem known_of_mem_destinations {name : String} (h : name ∈ t.destinations) :
    t.known s = t.namespaces := by
  apply if_neg
  intro hempty
  rw [destinations, List.isEmpty_iff.1 hempty] at h
  cases h

section Keyed

variable (hnodup : t.namespaces.Nodup) (hkey : s.key ∈ t.destinations)

include hnodup hkey

theorem column_ne_zero : (t.known s).idxOf s.key ≠ 0 := by
  rw [known_of_mem_destinations hkey]
  exact idxOf_ne_zero_of_mem_destinations hnodup hkey

omit hnodup in
theorem idxOf?_known : (t.known s).idxOf? s.key = some ((t.known s).idxOf s.key) := by
  apply idxOf?_of_mem
  rw [known_of_mem_destinations hkey]
  exact List.mem_of_mem_tail hkey

omit hnodup in
/-- A source that is keyed by a destination is merged, whatever its records are. -/
theorem merge_eq_of_mem_destinations (records : List Record) :
    t.merge { s with records } = .ok { t with
      namespaces := t.namespacesWith s
      classes := records.foldl (apply (t.viewOf s) (t.columnsOf s)) t.classes } := by
  have hcolumn : (t.known { s with records }).idxOf? s.key = some ((t.known s).idxOf s.key) :=
    idxOf?_known hkey
  rw [merge, hcolumn]
  rfl

theorem creates_viewOf : (t.viewOf s).creates = false :=
  creates_keyView (column_ne_zero hnodup hkey)

theorem knows_viewOf (hkeyed : t.Keyed) : Knows (t.viewOf s) t.classes :=
  hkeyed.known_of_class? (column_ne_zero hnodup hkey)

end Keyed

/-- A source that is keyed by a destination of a tree, and spares its source namespace, only
annotates the tree. A record does nothing if its class is not found in the tree by its key name, or
its member is not found by its key name in the tree as the records before left it. If the source does
not list its key among its destinations, the records that find no element in the tree may be left
out. -/
theorem merge_only_annotates (hreachable : t.Reachable) (hkeyed : t.Keyed)
    (hkey : s.key ∈ t.destinations) (hspares : t.sparesSource s = true) :
    ∃ t', t.merge s = .ok t' ∧ t.AnnotatedBy s t' ∧
      (∀ before r now, t.merge { s with records := before } = .ok now →
        r.isFound (t.viewOf s) now.classes = false →
          t.merge { s with records := before ++ [r] } = .ok now) ∧
      (s.key ∉ s.destinations →
        t.merge { s with records := s.records.filter (·.isFound (t.viewOf s) t.classes) } =
          .ok t') := by
  have hmerge := merge_eq_of_mem_destinations hkey
  have hv := creates_viewOf hreachable.nodup hkey
  have hknows := knows_viewOf hreachable.nodup hkey hkeyed
  refine ⟨_, hmerge s.records, ?_, ?_, ?_⟩
  · exact ⟨zero_not_mem_columnsOf hspares, annotates_foldl_apply hv hknows s.records, rfl, rfl, rfl⟩
  · intro before r now hnow hnot
    have hsame := (hmerge before).symm.trans hnow
    obtain rfl := Except.ok.inj hsame
    rw [hmerge, List.foldl_append, List.foldl_cons, List.foldl_nil,
      apply_eq_self hv (hknows.foldl_apply _ before) hnot]
  · intro hdistinct
    have hcolumn := column_not_mem_columnsOf hdistinct (idxOf?_known hkey)
    rw [hmerge, foldl_apply_filter hv hcolumn (annotates_refl _ _) hknows]

end MappingTree

namespace Builder

/-- Every tree that calls build is reachable. -/
theorem reachable_run (calls : List Call) : (run {} calls).tree.Reachable := by
  apply run_invariant (P := fun b => b.tree.Reachable)
  · intro b c next hb hsuccess
    refine hsuccess.tree_invariant ?_ (fun t name ht => ht.declareNamed name) hb
    intro p _ merged hp hmerge
    exact connectLineage_invariant (fun t a b ht _ _ => ht.connect a b) (hp.merge hmerge) _
  · exact .empty

namespace Sample

/-- A first source, of one class with one field. -/
def named : Call :=
  .content "first.tiny"
    (.bytes (bytesOf "v1\tofficial\tsearge\nCLASS\ta\tA\nFIELD\ta\tI\tf\tF\n"))
    (keyedBy "official")

/-- The tree of the first source. -/
def namedTree : MappingTree where
  namespaces := ["official", "searge"]
  graph := ⟨[("official", ["searge"]), ("searge", ["official"])], by decide⟩
  classes :=
    ⟨[("a", { names := [some "a", some "A"], fields := [⟨[some "f", some "F"], some "I", none⟩] })],
      by decide⟩

theorem run_named : (run {} [named]).tree = namedTree := by
  rfl

theorem keyed_namedTree : namedTree.Keyed := run_named ▸ run_keyed keyed_empty rfl

/-- A source that is keyed by the destination of the first, with names for one destination. -/
def keyedSource (destination : String) (records : List Record) : Source where
  key := "searge"
  destinations := [destination]
  lineage := ["searge", destination]
  records

/-- A record of a field of the class `A`. -/
def fieldRecord (key name : String) : Record :=
  ⟨.field "A" (some "I"), [some key, some name], none⟩

/-- Two records, the second of which goes by the name that the first one gives. -/
def twoNames (destination : String) : Source :=
  keyedSource destination [fieldRecord "F" "G", fieldRecord "G" "H"]

/-- The names of the fields of the class `a`. -/
def fieldNames (t : Except ForeignSource MappingTree) : Option (List Names) :=
  (t.toOption.bind (·.class? "a")).map fun c => c.fields.map (·.names)

end Sample

open Sample in
/-- Of two records one finds its field, the other one may be left out. -/
theorem merge_only_annotates_named :
    ∃ t, (run {} [named]).tree.merge (twoNames "mcp") = .ok t ∧
      (run {} [named]).tree.AnnotatedBy (twoNames "mcp") t ∧
      (run {} [named]).tree.merge (keyedSource "mcp" [fieldRecord "F" "G"]) = .ok t ∧
      fieldNames (.ok t) = some [[some "f", some "F", some "G"]] := by
  have hreachable : namedTree.Reachable := run_named ▸ reachable_run [named]
  have hkey : (twoNames "mcp").key ∈ namedTree.destinations := by decide
  obtain ⟨t, hmerge, hannotated, -, hfound⟩ :=
    MappingTree.merge_only_annotates hreachable keyed_namedTree hkey (by decide)
  have hfilter : (twoNames "mcp").records.filter
      (·.isFound (namedTree.viewOf (twoNames "mcp")) namedTree.classes) =
        [fieldRecord "F" "G"] := by
    rfl
  have hone := hfound (by decide)
  rw [hfilter] at hone
  have hnames : fieldNames (namedTree.merge (twoNames "mcp")) =
      some [[some "f", some "F", some "G"]] := by
    rfl
  rw [hmerge] at hnames
  rw [run_named]
  exact ⟨t, hmerge, hannotated, hone, hnames⟩

open Sample in
/-- A source that lists its key among its destinations gives a field the key by which its next record
finds it: the record is applied, and the tree before the merge has no field of that key. -/
theorem merge_applies_record_of_new_key :
    (run {} [named]).tree.Reachable ∧ (run {} [named]).tree.Keyed ∧
      (run {} [named]).tree.destinations = ["searge"] ∧
      (run {} [named]).tree.sparesSource (twoNames "searge") = true ∧
      (fieldRecord "G" "H").isFound ((run {} [named]).tree.viewOf (twoNames "searge"))
        (run {} [named]).tree.classes = false ∧
      fieldNames ((run {} [named]).tree.merge (keyedSource "searge" [fieldRecord "F" "G"])) =
        some [[some "f", some "G"]] ∧
      fieldNames ((run {} [named]).tree.merge (twoNames "searge")) =
        some [[some "f", some "H"]] := by
  refine ⟨reachable_run _, ?_⟩
  rw [run_named]
  exact ⟨keyed_namedTree, rfl, by decide, rfl, rfl, rfl⟩

end Builder

end JarRemap
