import JarRemap.Proofs.Reach.Search
import JarRemap.Resolver

/-!
# The ancestors of a class

A search meets nearer nodes before farther ones, and what it meets from one node in the order in
which that node lists its successors. So the ancestors of a class are its closure under going from
class to parent, the nearest first, in any hierarchy whatsoever.
-/

namespace JarRemap

namespace Reach

variable {α : Type} {next : α → List α} {start a b : α}

/-! ### The order of a search -/

/-- Whether there is no farther way to a node than to another one. -/
def AsNear (next : α → List α) (start a b : α) : Prop :=
  ∀ path, Way next start path b → ∃ other, Way next start other a ∧ other.length ≤ path.length

variable [DecidableEq α]

/-- The first of some nodes that has a node among its successors. -/
def metFrom? (next : α → List α) (nodes : List α) (a : α) : Option α :=
  nodes.find? fun c => a ∈ next c

/-- Whether, of two nodes that are met when some nodes are taken one after another, one is met
first: it is a successor of an earlier node, or listed before the other by the same node. -/
def MetBefore (next : α → List α) (nodes : List α) (a b : α) : Prop :=
  ∃ c d, metFrom? next nodes a = some c ∧ metFrom? next nodes b = some d ∧
    (nodes.idxOf c < nodes.idxOf d ∨ c = d ∧ (next c).idxOf a < (next c).idxOf b)

section MetFrom

variable {nodes : List α} {c : α}

theorem metFrom?_append (h : metFrom? next nodes a = some c) (more : List α) :
    metFrom? next (nodes ++ more) a = some c := by
  rw [metFrom?] at h ⊢
  rw [List.find?_append, h, Option.some_or]

theorem mem_of_metFrom? (h : metFrom? next nodes a = some c) : c ∈ nodes :=
  List.mem_of_find?_eq_some h

/-- Taking more nodes does not change what was met before. -/
theorem MetBefore.append (h : MetBefore next nodes a b) (more : List α) :
    MetBefore next (nodes ++ more) a b := by
  obtain ⟨c, d, hc, hd, hbefore⟩ := h
  refine ⟨c, d, metFrom?_append hc more, metFrom?_append hd more, ?_⟩
  rwa [List.idxOf_append_of_mem (mem_of_metFrom? hc), List.idxOf_append_of_mem (mem_of_metFrom? hd)]

/-- What no node so far has among its successors is met from the next one that has. -/
theorem metFrom?_snoc (hnew : ∀ d ∈ nodes, a ∉ next d) (h : a ∈ next c) :
    metFrom? next (nodes ++ [c]) a = some c := by
  have hnone : nodes.find? (fun d => a ∈ next d) = none :=
    List.find?_eq_none.2 fun d hd => by simpa using hnew d hd
  rw [metFrom?, List.find?_append, hnone, Option.none_or, List.find?_cons_of_pos (by simpa using h)]

end MetFrom

/-- The order in which a search has met nodes: no farther node before a nearer one, and all nodes
but the start in the order in which taking nodes meets them. -/
structure Ordered (next : α → List α) (done queue : List (Visit α)) : Prop where
  near : (done ++ queue).Pairwise fun v w => v.trail.length ≤ w.trail.length
  met : ∀ a ∈ (visited (done ++ queue)).tail, (metFrom? next (visited done) a).isSome
  order : (visited (done ++ queue)).tail.Pairwise (MetBefore next (visited done))

namespace Ordered

variable {done queue : List (Visit α)} {visit : Visit α} {seen : List α}

theorem initial (next : α → List α) (start : α) : Ordered next [] [⟨start, [start]⟩] where
  near := List.pairwise_singleton _ _
  met _ ha := absurd ha List.not_mem_nil
  order := List.Pairwise.nil

/-- Taking the next visit meets nodes behind all others. -/
theorem take (hfrontier : Frontier next start done (visit :: queue))
    (hseen : ∀ a, a ∈ seen ↔ a ∈ visited (done ++ visit :: queue))
    (h : Ordered next done (visit :: queue)) :
    Ordered next (done ++ [visit]) (queue ++ fresh seen visit.trail (next visit.node)) := by
  have hlisted := pairwise_idxOf_fresh seen visit.trail (next visit.node)
  have hmem : ∀ v ∈ fresh seen visit.trail (next visit.node), v.node ∈ next visit.node ∧
      v.node ∉ seen ∧ v.trail = v.node :: visit.trail := fun v hv => mem_fresh hv
  generalize fresh seen visit.trail (next visit.node) = found at hlisted hmem
  have htail : (visited ((done ++ [visit]) ++ (queue ++ found))).tail =
      (visited (done ++ visit :: queue)).tail ++ visited found := by
    rw [append_taken, visited_append, List.tail_append_of_ne_nil]
    simp [visited]
  have hdone : visited (done ++ [visit]) = visited done ++ [visit.node] := visited_append _ _
  -- what is met now is a successor of no node that was taken before
  have hnow : ∀ a ∈ visited found,
      metFrom? next (visited (done ++ [visit])) a = some visit.node := by
    intro a ha
    obtain ⟨v, hv, rfl⟩ := mem_visited.1 ha
    obtain ⟨hnext, hnew, -⟩ := hmem v hv
    rw [hdone]
    refine metFrom?_snoc ?_ hnext
    intro d hd hsuccessor
    obtain ⟨u, hu, rfl⟩ := mem_visited.1 hd
    exact hnew ((hseen _).2 (hfrontier.closed u hu _ hsuccessor))
  constructor
  case near =>
    rw [append_taken]
    have hlength : ∀ w ∈ found, w.trail.length = visit.trail.length + 1 := by
      intro w hw
      rw [(hmem w hw).2.2, List.length_cons]
    have hle : ∀ v ∈ done ++ visit :: queue, v.trail.length ≤ visit.trail.length + 1 := by
      intro v hv
      rcases List.mem_append.1 hv with hv | hv
      · have hbefore := (List.pairwise_append.1 h.near).2.2 v hv visit List.mem_cons_self
        exact Nat.le_succ_of_le hbefore
      · exact hfrontier.layered.level visit List.mem_cons_self v hv
    refine List.pairwise_append.2 ⟨h.near, ?_, ?_⟩
    · refine List.pairwise_of_forall_mem_list fun v hv w hw => ?_
      rw [hlength v hv, hlength w hw]
    · intro v hv w hw
      rw [hlength w hw]
      exact hle v hv
  case met =>
    rw [htail]
    intro a ha
    rcases List.mem_append.1 ha with ha | ha
    · obtain ⟨c, hc⟩ := Option.isSome_iff_exists.1 (h.met a ha)
      rw [hdone, metFrom?_append hc]
      rfl
    · rw [hnow a ha]
      rfl
  case order =>
    rw [htail]
    refine List.pairwise_append.2 ⟨?_, ?_, ?_⟩
    · rw [hdone]
      exact h.order.imp fun hbefore => hbefore.append _
    · refine hlisted.imp_of_mem fun ha hb hlt => ?_
      exact ⟨_, _, hnow _ ha, hnow _ hb, .inr ⟨rfl, hlt⟩⟩
    · intro a ha b hb
      obtain ⟨c, hc⟩ := Option.isSome_iff_exists.1 (h.met a ha)
      have hlast : visit.node ∉ visited done := by
        intro hmem
        have honce := hfrontier.once
        rw [visited_append, List.nodup_append] at honce
        exact honce.2.2 _ hmem _ (mem_visited.2 ⟨visit, List.mem_cons_self, rfl⟩) rfl
      refine ⟨c, _, hdone ▸ metFrom?_append hc _, hnow b hb, .inl ?_⟩
      rw [hdone, List.idxOf_append_of_mem (mem_of_metFrom? hc), List.idxOf_append_of_notMem hlast]
      exact Nat.lt_add_right _ (List.idxOf_lt_length_of_mem (mem_of_metFrom? hc))

end Ordered

section Search

variable {pool : List α} (hpool : ∀ a, ∀ b ∈ next a, b ∈ pool)
include hpool

theorem frontier_and_ordered_search (start : α) :
    Frontier next start (search next pool.length start) [] ∧
      Ordered next (search next pool.length start) [] :=
  search_induction hpool (.initial next start) Ordered.take

theorem head?_nodes (start : α) : (nodes next pool.length start).head? = some start := by
  cases drains_search hpool start with
  | take rest => rfl

theorem nodup_nodes (start : α) : (nodes next pool.length start).Nodup := by
  have honce := (frontier_search hpool start).once
  rwa [List.append_nil] at honce

/-- Nearer nodes are listed before farther ones. -/
theorem pairwise_asNear_nodes (start : α) :
    (nodes next pool.length start).Pairwise (AsNear next start) := by
  obtain ⟨hfrontier, hordered⟩ := frontier_and_ordered_search hpool start
  have hnear := hordered.near
  have hshortest := hfrontier.shortest
  rw [List.append_nil] at hnear hshortest
  refine List.pairwise_map.2 (hnear.imp_of_mem fun {v w} hv hw hle => ?_)
  intro path hpath
  refine ⟨v.trail.reverse, (hshortest v hv).way, ?_⟩
  have hleast := (hshortest w hw).least path hpath
  rw [List.length_reverse] at hleast ⊢
  exact Nat.le_trans hle hleast

/-- What is met from one node is listed in the order in which that node lists it. -/
theorem pairwise_metBefore_nodes (start : α) :
    (nodes next pool.length start).tail.Pairwise (MetBefore next (nodes next pool.length start)) := by
  have horder := (frontier_and_ordered_search hpool start).2.order
  rwa [List.append_nil] at horder

theorem nodes_subset (start : α) : nodes next pool.length start ⊆ start :: pool := by
  intro a ha
  rcases ((mem_nodes_iff hpool).1 ha).cases_tail with rfl | ⟨b, -, hb⟩
  · exact List.mem_cons_self
  · exact List.mem_cons_of_mem start (hpool b a hb)

/-- A search that has room for every successor there is ends on its own. -/
theorem nodes_of_le (start : α) {bound : Nat} (hbound : pool.length ≤ bound) :
    nodes next bound start = nodes next pool.length start := by
  have hlength : (nodes next pool.length start).length ≤ pool.length + 1 :=
    (List.subperm_of_subset (nodup_nodes hpool start) (nodes_subset hpool start)).length_le
  rw [nodes, List.length_map] at hlength
  exact congrArg (List.map Visit.node) ((drains_search hpool start).searchFrom_eq (by omega))

end Search

end Reach

namespace Hierarchy

open Reach

theorem mem_parents_subset (h : Hierarchy) : ∀ name, ∀ parent ∈ h.parents name,
    parent ∈ h.parentsOf.values.flatten :=
  fun _ _ => OrderedMap.mem_flatten_values

/-- The ancestors that are searched are a class and all that can be reached from it by going from
class to parent, cycles included. -/
theorem mem_ancestors_iff {h : Hierarchy} {name ancestor : String} :
    ancestor ∈ h.ancestors name ↔ Reaches h.parents name ancestor :=
  mem_nodes_iff h.mem_parents_subset

/-- The parents of a class that is recorded are its super class and then its interfaces. -/
theorem parents_insertClass (h : Hierarchy) (c : ClassFile) (name : String) :
    (h.insertClass c).parents name =
      if name = c.name then c.superName?.toList ++ c.interfaceNames else h.parents name := by
  rw [insertClass, insert, parents, OrderedMap.get?_insert]
  split
  · rfl
  · rfl

/-- The ancestors of a class are its closure under going from class to parent, in any hierarchy:
each once, the class itself first, nearer ones before farther ones, and those that are first met as
parents of one class in the order of its parents, which is super class before interfaces. They are
complete when as many classes were looked at as there are parents, so that the search ends. -/
theorem ancestors_nearest_first (h : Hierarchy) (name : String) :
    (h.ancestors name).head? = some name ∧ (h.ancestors name).Nodup ∧
      (∀ ancestor, ancestor ∈ h.ancestors name ↔ Reaches h.parents name ancestor) ∧
      (h.ancestors name).Pairwise (AsNear h.parents name) ∧
      (h.ancestors name).tail.Pairwise (MetBefore h.parents (h.ancestors name)) ∧
      (∀ bound, h.parentCount ≤ bound → nodes h.parents bound name = h.ancestors name) ∧
      ∀ c : ClassFile, (h.insertClass c).parents c.name = c.superName?.toList ++ c.interfaceNames := by
  have hpool := h.mem_parents_subset
  refine ⟨head?_nodes hpool name, nodup_nodes hpool name, fun _ => mem_ancestors_iff,
    pairwise_asNear_nodes hpool name, pairwise_metBefore_nodes hpool name,
    fun _ hbound => nodes_of_le hpool name hbound, fun c => ?_⟩
  rw [parents_insertClass, if_pos rfl]

/-- A class with two ways to an interface, and with itself among its ancestors. -/
def looped : Hierarchy :=
  ((({} : Hierarchy).insert "c" ["b", "i"]).insert "b" ["a", "i"]).insert "a" ["c", "object"]

theorem ancestors_nearest_first_looped :
    looped.ancestors "c" = ["c", "b", "i", "a", "object"] ∧ looped.parentCount ≤ 100 ∧
      nodes looped.parents 100 "c" = looped.ancestors "c" ∧
      (looped.ancestors "c").Pairwise (AsNear looped.parents "c") ∧
      Reaches looped.parents "c" "object" ∧ ¬ Reaches looped.parents "c" "d" := by
  have hlisted : looped.ancestors "c" = ["c", "b", "i", "a", "object"] := by cbv
  have hcount : looped.parentCount ≤ 100 := by decide
  obtain ⟨-, -, hmem, hnear, -, hends, -⟩ := ancestors_nearest_first looped "c"
  refine ⟨hlisted, hcount, hends 100 hcount, hnear, ?_, ?_⟩
  · rw [← hmem, hlisted]
    decide
  · rw [← hmem, hlisted]
    decide

end Hierarchy

end JarRemap
