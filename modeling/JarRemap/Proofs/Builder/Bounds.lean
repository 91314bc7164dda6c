import JarRemap.Proofs.Builder.Sources
import JarRemap.Proofs.Merge.Record

/-!
# Columns and namespaces

In every tree that calls build, the namespaces are pairwise distinct and no element has a name in a
column that belongs to no namespace. A namespace that is new to the tree is therefore a column in
which nothing is named yet.
-/

namespace JarRemap

theorem forall_mem_modify {α : Type} {P : α → Prop} {f : α → α} (hf : ∀ a, P a → P (f a))
    {l : List α} (h : ∀ a ∈ l, P a) (i : Nat) : ∀ a ∈ l.modify i f, P a := by
  intro a ha
  obtain ⟨j, hj⟩ := List.mem_iff_getElem?.1 ha
  rw [List.getElem?_modify] at hj
  cases hold : l[j]? with
  | none =>
    rw [hold] at hj
    cases hj
  | some old =>
    rw [hold] at hj
    have hP := h old (List.mem_of_getElem? hold)
    cases hj
    split
    · exact hf old hP
    · exact hP

theorem forall_mem_append_singleton {α : Type} {P : α → Prop} {l : List α} {a : α}
    (h : ∀ x ∈ l, P x) (ha : P a) : ∀ x ∈ l ++ [a], P x := by
  intro x hx
  rcases List.mem_append.1 hx with hx | hx
  · exact h x hx
  · rwa [List.mem_singleton.1 hx]

/-- Names in the first columns only. -/
def Names.Within (width : Nat) (names : Names) : Prop :=
  ∀ column, width ≤ column → names.get? column = none

namespace Names

variable {width : Nat}

theorem Within.mono {names : Names} (h : names.Within width) {wider : Nat} (hle : width ≤ wider) :
    names.Within wider :=
  fun column hcolumn => h column (Nat.le_trans hle hcolumn)

theorem within_nil : Within width [] := fun _ _ => rfl

theorem within_ofSource (hwidth : 0 < width) (name : String) : (ofSource name).Within width := by
  intro column hcolumn
  rw [get?, ofSource, List.getElem?_eq_none (by simp only [List.length_singleton]; omega)]
  rfl

theorem Within.write {names : Names} (h : names.Within width) {columns : List Nat}
    (hcolumns : ∀ column ∈ columns, column < width) (r : Record) (start : Nat) :
    (names.write columns r start).Within width := by
  intro column hcolumn
  rw [get?_write, h column hcolumn, Option.or_none]
  refine lastFor_eq_none fun e he => ?_
  have hlt := hcolumns e.1 (List.of_mem_zip (List.mem_of_mem_drop he)).1
  omega

end Names

/-- A class, and all that belongs to it, with names in the first columns only. -/
structure ClassMapping.Within (width : Nat) (c : ClassMapping) : Prop where
  names : c.names.Within width
  fields : ∀ f ∈ c.fields, f.names.Within width
  methods : ∀ m ∈ c.methods, m.names.Within width
  params : ∀ m ∈ c.methods, ∀ p ∈ m.params, p.names.Within width

namespace ClassMapping

variable {width : Nat}

theorem Within.mono {c : ClassMapping} (h : c.Within width) {wider : Nat} (hle : width ≤ wider) :
    c.Within wider :=
  ⟨h.names.mono hle, fun f hf => (h.fields f hf).mono hle, fun m hm => (h.methods m hm).mono hle,
    fun m hm p hp => (h.params m hm p hp).mono hle⟩

theorem within_ofSource (hwidth : 0 < width) (name : String) : (ofSource name).Within width :=
  ⟨Names.within_ofSource hwidth name, List.forall_mem_nil _, List.forall_mem_nil _,
    List.forall_mem_nil _⟩

theorem within_annotateParam {columns : List Nat} (hcolumns : ∀ column ∈ columns, column < width)
    {r : Record} {m : MethodMapping} (h : ∀ p ∈ m.params, p.names.Within width) (index : UInt16) :
    ∀ p ∈ (m.annotateParam columns index r).params, p.names.Within width := by
  unfold MethodMapping.annotateParam
  dsimp only
  split
  · exact forall_mem_modify (fun p hp => hp.write hcolumns r 0) h _
  · exact forall_mem_append_singleton h (Names.within_nil.write hcolumns r 0)

end ClassMapping

/-- A record that is written into the first columns leaves all names in them. -/
theorem Record.Changes.within {width : Nat} {v : KeyView} {columns : List Nat} {r : Record}
    {c c' : ClassMapping} (hwidth : 0 < width) (hcolumns : ∀ column ∈ columns, column < width)
    (hchange : r.Changes v columns c c') (h : c.Within width) : c'.Within width := by
  cases hchange with
  | skipped => exact h
  | type => exact ⟨h.names.write hcolumns r 1, h.fields, h.methods, h.params⟩
  | field =>
    exact ⟨h.names, forall_mem_modify (fun f hf => hf.write hcolumns r 1) h.fields _, h.methods,
      h.params⟩
  | newField =>
    exact ⟨h.names, forall_mem_append_singleton h.fields
      ((Names.within_ofSource hwidth _).write hcolumns r 1), h.methods, h.params⟩
  | @method _ _ desc =>
    exact ⟨h.names, h.fields, forall_mem_modify (fun m hm => hm.write hcolumns r 1) h.methods _,
      forall_mem_modify (P := fun m : MethodMapping => ∀ p ∈ m.params, p.names.Within width)
        (f := MethodMapping.annotate columns (desc.map v.sourceDesc) r) (fun m hm => hm) h.params _⟩
  | newMethod =>
    exact ⟨h.names, h.fields, forall_mem_append_singleton h.methods
      ((Names.within_ofSource hwidth _).write hcolumns r 1),
      forall_mem_append_singleton h.params (List.forall_mem_nil _)⟩
  | @param _ _ _ index =>
    exact ⟨h.names, h.fields,
      forall_mem_modify (f := MethodMapping.annotateParam columns index r) (fun m hm => hm) h.methods _,
      forall_mem_modify (P := fun m : MethodMapping => ∀ p ∈ m.params, p.names.Within width)
        (f := MethodMapping.annotateParam columns index r)
        (fun m hm => ClassMapping.within_annotateParam hcolumns hm index) h.params _⟩
  | @newParam _ _ _ index =>
    exact ⟨h.names, h.fields,
      forall_mem_append_singleton h.methods (Names.within_ofSource hwidth _),
      forall_mem_append_singleton h.params
        (ClassMapping.within_annotateParam hcolumns (List.forall_mem_nil _) index)⟩

namespace MappingTree

/-- The namespaces of a tree are pairwise distinct, and its names stand in their columns. -/
structure Bounded (t : MappingTree) : Prop where
  nodup : t.namespaces.Nodup
  within : ∀ name c, t.class? name = some c → c.Within t.namespaces.length

theorem nodup_known {t : MappingTree} (h : t.namespaces.Nodup) (s : Source) :
    (t.known s).Nodup := by
  unfold known
  split
  · simp
  · exact h

theorem namespaces_length_le_known (t : MappingTree) (s : Source) :
    t.namespaces.length ≤ (t.known s).length := by
  unfold known
  split
  · next h => simp [List.isEmpty_iff.1 h]
  · exact Nat.le_refl _

theorem known_length_le (t : MappingTree) (s : Source) :
    (t.known s).length ≤ (t.namespacesWith s).length :=
  (prefix_addAllNew (t.known s) s.namespaces).length_le

theorem known_length_pos (t : MappingTree) (s : Source) : 0 < (t.known s).length := by
  unfold known
  split
  · simp
  · next h => exact List.length_pos_iff.2 fun hnil => h (List.isEmpty_iff.2 hnil)

theorem columnsOf_lt (t : MappingTree) (s : Source) :
    ∀ column ∈ t.columnsOf s, column < (t.namespacesWith s).length := by
  intro column hcolumn
  obtain ⟨name, hname, rfl⟩ := List.mem_map.1 hcolumn
  exact List.idxOf_lt_length_of_mem (mem_addAllNew.2 (.inr hname))

theorem Bounded.merge {t t' : MappingTree} {s : Source} (h : t.Bounded)
    (hmerge : t.merge s = .ok t') : t'.Bounded := by
  obtain ⟨column, -, rfl⟩ := merge_eq_ok hmerge
  have hwidth : 0 < (t.namespacesWith s).length :=
    Nat.lt_of_lt_of_le (known_length_pos t s) (known_length_le t s)
  have hwider : t.namespaces.length ≤ (t.namespacesWith s).length :=
    Nat.le_trans (namespaces_length_le_known t s) (known_length_le t s)
  refine ⟨nodup_addAllNew (nodup_known h.nodup s) s.namespaces, ?_⟩
  refine foldl_apply_invariant (P := fun _ c => c.Within (t.namespacesWith s).length)
    (fun name => ClassMapping.within_ofSource hwidth name) ?_
    (fun name c hc => (h.within name c hc).mono hwider)
  intro r _ name c hc
  exact (r.changes_change _ _ c).within hwidth (columnsOf_lt t s) hc

theorem bounded_congr {t t' : MappingTree} (hclasses : t'.classes = t.classes)
    (hnamespaces : t'.namespaces = t.namespaces) (h : t.Bounded) : t'.Bounded := by
  refine ⟨hnamespaces ▸ h.nodup, ?_⟩
  rw [hnamespaces]
  intro name c hc
  rw [class?, hclasses] at hc
  exact h.within name c hc

end MappingTree

namespace Builder

/-- Every tree that calls build is bounded. -/
theorem bounded_run (calls : List Call) : (run {} calls).tree.Bounded := by
  refine run_invariant (P := fun b => b.tree.Bounded) ?_ ?_ calls
  · intro b c next hb hsuccess
    refine hsuccess.tree_invariant ?_ ?_ hb
    · intro p _ merged hp hmerge
      exact MappingTree.bounded_congr (classes_connectLineage _ _) (namespaces_connectLineage _ _)
        (hp.merge hmerge)
    · exact fun t name ht => MappingTree.bounded_congr (MappingTree.classes_declareNamed t name)
        (MappingTree.namespaces_declareNamed t name) ht
  · refine ⟨List.nodup_nil, ?_⟩
    intro name c hc
    cases hc

end Builder

end JarRemap
