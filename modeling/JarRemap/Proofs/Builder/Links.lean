import JarRemap.Proofs.Builder.Sources

/-!
# The graph of namespaces

In every tree that calls build, the graph is symmetric, connects no namespace with itself, and
mentions only namespaces of the tree.
-/

namespace JarRemap

namespace MappingTree

/-- The graph of a tree is an undirected graph without loops on the namespaces of the tree. -/
structure Linked (t : MappingTree) : Prop where
  symm : ∀ a b, b ∈ t.neighbours a → a ∈ t.neighbours b
  irrefl : ∀ a, a ∉ t.neighbours a
  endpoints : ∀ a b, b ∈ t.neighbours a → a ∈ t.namespaces ∧ b ∈ t.namespaces

theorem getD_get?_addNeighbour (graph : OrderedMap String (List String)) (a b c : String) :
    ((addNeighbour graph a b).get? c).getD [] =
      if c = a then addNew ((graph.get? a).getD []) b else (graph.get? c).getD [] := by
  rw [addNeighbour, OrderedMap.get?_modify_insertNew]
  by_cases hc : c = a
  · rw [if_pos hc, if_pos hc, hc]
    rfl
  · rw [if_neg hc, if_neg hc]

/-- Connecting two namespaces makes them neighbours of each other and changes nothing else. -/
theorem mem_neighbours_connect {t : MappingTree} {a b : String} (hab : a ≠ b) {c d : String} :
    d ∈ (t.connect a b).neighbours c ↔
      d ∈ t.neighbours c ∨ (c = a ∧ d = b) ∨ (c = b ∧ d = a) := by
  rw [connect, if_neg hab]
  simp only [neighbours, getD_get?_addNeighbour]
  by_cases hca : c = a
  · subst hca
    simp [hab]
  · by_cases hcb : c = b
    · subst hcb
      simp [hca]
    · simp [hca, hcb]

theorem connect_self (t : MappingTree) (a : String) : t.connect a a = t := by
  rw [connect, if_pos rfl]

theorem Linked.connect {t : MappingTree} (h : t.Linked) {a b : String} (ha : a ∈ t.namespaces)
    (hb : b ∈ t.namespaces) : (t.connect a b).Linked := by
  by_cases hab : a = b
  · subst hab
    rwa [connect_self]
  · constructor
    case symm =>
      intro c d hd
      rw [mem_neighbours_connect hab] at hd ⊢
      rcases hd with hd | ⟨rfl, rfl⟩ | ⟨rfl, rfl⟩
      · exact .inl (h.symm c d hd)
      · exact .inr (.inr ⟨rfl, rfl⟩)
      · exact .inr (.inl ⟨rfl, rfl⟩)
    case irrefl =>
      intro c hc
      rw [mem_neighbours_connect hab] at hc
      rcases hc with hc | ⟨rfl, rfl⟩ | ⟨rfl, rfl⟩
      · exact h.irrefl c hc
      · exact hab rfl
      · exact hab rfl
    case endpoints =>
      intro c d hd
      rw [namespaces_connect]
      rw [mem_neighbours_connect hab] at hd
      rcases hd with hd | ⟨rfl, rfl⟩ | ⟨rfl, rfl⟩
      · exact h.endpoints c d hd
      · exact ⟨ha, hb⟩
      · exact ⟨hb, ha⟩

theorem Linked.congr {t t' : MappingTree} (h : t.Linked) (hgraph : t'.graph = t.graph)
    (hnamespaces : t.namespaces ⊆ t'.namespaces) : t'.Linked := by
  have hneighbours : t'.neighbours = t.neighbours := by
    funext a
    rw [neighbours, neighbours, hgraph]
  constructor
  case symm =>
    rw [hneighbours]
    exact h.symm
  case irrefl =>
    rw [hneighbours]
    exact h.irrefl
  case endpoints =>
    rw [hneighbours]
    intro a b hb
    obtain ⟨ha, hb⟩ := h.endpoints a b hb
    exact ⟨hnamespaces ha, hnamespaces hb⟩

/-- A merge does not touch the graph, and all namespaces stay. -/
theorem Linked.merge {t t' : MappingTree} {s : Source} (h : t.Linked)
    (hmerge : t.merge s = .ok t') : t'.Linked := by
  obtain ⟨column, -, rfl⟩ := merge_eq_ok hmerge
  refine h.congr rfl ?_
  intro a ha
  rw [namespacesWith, mem_addAllNew, known]
  split
  · next hempty => simp [List.isEmpty_iff.1 hempty] at ha
  · exact .inl ha

end MappingTree

/-- Every tree that calls build is linked. -/
theorem Builder.linked_run (calls : List Call) : (run {} calls).tree.Linked := by
  refine run_invariant (P := fun b => b.tree.Linked) ?_ ?_ calls
  · intro b c next hb hsuccess
    refine hsuccess.tree_invariant ?_ ?_ hb
    · intro p _ merged hp hmerge
      exact connectLineage_invariant (fun t a b ht ha hb => ht.connect ha hb) (hp.merge hmerge) _
    · exact fun t name ht => ht.congr rfl (List.Subset.refl _)
  · constructor
    case symm =>
      intro a b hb
      cases hb
    case irrefl =>
      intro a ha
      cases ha
    case endpoints =>
      intro a b hb
      cases hb

end JarRemap
