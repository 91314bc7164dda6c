import JarRemap.Proofs.Builder.SourceColumn
import JarRemap.Proofs.Merge.Unique

/-!
# Well-formed trees

What holds of every tree that calls build, as long as no source that is merged lists the source
namespace as a destination: names stand in the columns of namespaces, members and parameters are
told apart, and a class is found by any of its names.
-/

namespace JarRemap

namespace MappingTree

/-- In a tree that is fit to be searched, every class stands under its source name, and its members
and their parameters are told apart. -/
structure WellFormed (t : MappingTree) : Prop where
  keyed : t.Keyed
  unique : ∀ name c, t.class? name = some c → c.Unique

variable {t t' : MappingTree}

/-- By a name in a column behind the first, the class is found that came last of those that bear
it. -/
theorem Keyed.findClass?_eq (h : t.Keyed) {column : Nat} (hpos : 0 < column) (name : String) :
    t.findClass? name column =
      t.classes.values.reverse.find? fun c => c.names.get? column = some name := by
  have hbears : (fun c : ClassMapping =>
      ((c.names.get? column).map fun name => (name, c.names.source)).any fun e => e.1 = name) =
        fun c => decide (c.names.get? column = some name) := by
    funext c
    cases c.names.get? column <;> simp
  rw [findClass?, if_neg (Nat.ne_of_gt hpos), sourceNames, OrderedMap.ofList,
    OrderedMap.get?_insertAll, OrderedMap.get?_empty, Option.or_none, ← List.filterMap_reverse,
    List.find?_filterMap, hbears]
  cases hfind : t.classes.values.reverse.find? fun c => c.names.get? column = some name with
  | none => rfl
  | some c =>
    have hname : c.names.get? column = some name := by simpa using List.find?_some hfind
    have hc : c ∈ t.classes.values := List.mem_reverse.1 (List.mem_of_find?_eq_some hfind)
    rw [Option.bind_some, hname]
    exact h.class?_source hc

theorem Keyed.findClass?_eq_none_iff (h : t.Keyed) {column : Nat} (hpos : 0 < column)
    (name : String) :
    t.findClass? name column = none ↔ ∀ c ∈ t.classes.values, c.names.get? column ≠ some name := by
  rw [h.findClass?_eq hpos, List.find?_eq_none]
  simp only [List.mem_reverse, decide_eq_true_eq, ne_eq]

theorem WellFormed.merge (h : t.WellFormed) {s : Source} (hspares : t.sparesSource s = true)
    (hmerge : t.merge s = .ok t') : t'.WellFormed := by
  refine ⟨(merge_keeps_sources hspares h.keyed hmerge).1, ?_⟩
  obtain ⟨column, -, rfl⟩ := merge_eq_ok hmerge
  refine foldl_apply_invariant (P := fun _ c => c.Unique)
    (fun name => ClassMapping.unique_ofSource name) ?_ h.unique
  intro r _ name c hc
  exact (r.changes_change _ _ c).unique (zero_not_mem_columnsOf hspares) hc

theorem WellFormed.connectLineage (h : t.WellFormed) (lineage : List String) :
    (Builder.connectLineage t lineage).WellFormed := by
  refine ⟨Builder.keyed_connectLineage.2 h.keyed, ?_⟩
  intro name c hc
  rw [class?, Builder.classes_connectLineage] at hc
  exact h.unique name c hc

end MappingTree

namespace Builder

/-- Whether every source that a run merges spares the source namespace. What a call merges into its
copy of the tree before it fails does not count. -/
def mergesSpareSource : Builder → List Call → Bool
  | _, [] => true
  | b, c :: calls =>
      ((b.step c).2.isSome || c.sparesSource b) && (b.step c).1.mergesSpareSource calls

theorem step_wellFormed {b : Builder} {c : Call}
    (hspares : ((b.step c).2.isSome || c.sparesSource b) = true) (h : b.tree.WellFormed) :
    (b.step c).1.tree.WellFormed := by
  cases hresult : (b.step c).2 with
  | some e =>
    rw [step_fst_of_error hresult]
    exact h
  | none =>
    rw [hresult, Option.isSome_none, Bool.false_or] at hspares
    refine (success_of_step hresult).tree_invariant ?_ ?_ h
    · intro p hp merged hold hmerge
      exact (hold.merge (List.all_eq_true.1 hspares p hp) hmerge).connectLineage p.2.lineage
    · exact fun t name ht => ⟨ht.keyed, ht.unique⟩

theorem run_wellFormed {b : Builder} (h : b.tree.WellFormed) {calls : List Call}
    (hspares : b.mergesSpareSource calls = true) : (b.run calls).tree.WellFormed := by
  induction calls generalizing b with
  | nil => exact h
  | cons c calls ih =>
    rw [mergesSpareSource, Bool.and_eq_true] at hspares
    exact ih (step_wellFormed hspares.1 h) hspares.2

/-- Along every run whose sources spare the source namespace, the namespaces of the tree are
pairwise distinct; no class, field, method or parameter has a name behind their columns; no two
fields and no two methods of a class share a source name and have descriptors that fit each other;
no two parameters of a method share an index; and by a name in a column behind the first, the class
is found that came last of those that bear the name, and none only if none bears it. -/
theorem tree_is_well_formed (calls : List Call)
    (hspares : ({} : Builder).mergesSpareSource calls = true) :
    (run {} calls).tree.namespaces.Nodup ∧
    (∀ c ∈ (run {} calls).tree.classes.values,
      c.Within (run {} calls).tree.namespaces.length ∧
      (∀ kind, (c.members kind).Pairwise fun a b =>
        ¬ (a.names.get? 0 = b.names.get? 0 ∧ descriptorsFit a.desc b.desc = true)) ∧
      ∀ m ∈ c.methods, (m.params.map (·.index)).Nodup) ∧
    ∀ column name, 0 < column →
      (run {} calls).tree.findClass? name column =
        (run {} calls).tree.classes.values.reverse.find?
          (fun c => c.names.get? column = some name) ∧
      ((run {} calls).tree.findClass? name column = none ↔
        ∀ c ∈ (run {} calls).tree.classes.values, c.names.get? column ≠ some name) := by
  have hbounded := bounded_run calls
  have hformed : (run {} calls).tree.WellFormed := by
    refine run_wellFormed ⟨keyed_empty, ?_⟩ hspares
    intro name c hc
    cases hc
  refine ⟨hbounded.nodup, ?_, ?_⟩
  · intro c hc
    obtain ⟨name, hname⟩ := OrderedMap.mem_values_iff.1 hc
    have hunique := hformed.unique name c hname
    exact ⟨hbounded.within name c hname, hunique.members, hunique.params⟩
  · intro column name hpos
    exact ⟨hformed.keyed.findClass?_eq hpos name, hformed.keyed.findClass?_eq_none_iff hpos name⟩

namespace Sample

/-- A source with two methods of one name. -/
def overloads : Call :=
  .content "overloads.tiny" (.bytes (bytesOf
    ("v1\tofficial\tsearge\nCLASS\ta\tA\nMETHOD\ta\t()V\tm\tfoo\nMETHOD\ta\t(I)V\tm\tbar\n")))
    (keyedBy "official")

end Sample

open Sample in
/-- Two methods that share a name differ in their descriptors, and the class is found by its new
name. -/
theorem tree_is_well_formed_overloads :
    ({} : Builder).mergesSpareSource [overloads, layered] = true ∧
    (run {} [overloads, layered]).tree.namespaces = ["official", "searge", "mcp"] ∧
    ((run {} [overloads, layered]).tree.class? "a").map (fun c => c.methods.map (·.desc)) =
      some [some "()V", some "(I)V"] ∧
    ((run {} [overloads, layered]).tree.findClass? "Foo" 2).map (·.names) =
      some [some "a", some "A", some "Foo"] := by
  have hspares : ({} : Builder).mergesSpareSource [overloads, layered] = true := by cbv
  obtain ⟨-, -, hfound⟩ := tree_is_well_formed [overloads, layered] hspares
  refine ⟨hspares, by cbv, by cbv, ?_⟩
  rw [(hfound 2 "Foo" (by decide)).1]
  cbv

end Builder

end JarRemap
