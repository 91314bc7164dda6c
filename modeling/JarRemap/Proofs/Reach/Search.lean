import Mathlib
import JarRemap.Reach

/-!
# Breadth-first search finds shortest ways

What the search keeps while it takes node after node from its queue: a node is met once, each node
is met on a shortest way to it, and the successors of every node that was taken were met. Once the
queue is empty, the nodes that were met are those that can be reached.
-/

namespace JarRemap.Reach

variable {α : Type} {next : α → List α}

/-- That a goal can be reached from a start by following successors. -/
abbrev Reaches (next : α → List α) : α → α → Prop :=
  Relation.ReflTransGen fun a b => b ∈ next a

/-- A way from a start to a goal: both included, each node a successor of the one before it. -/
inductive Way (next : α → List α) : α → List α → α → Prop where
  | here (a : α) : Way next a [a] a
  | step {a b c : α} {path : List α} (edge : b ∈ next a) (rest : Way next b path c) :
      Way next a (a :: path) c

/-- A way that is no longer than any other way between its ends. -/
structure Shortest (next : α → List α) (start : α) (path : List α) (goal : α) : Prop where
  way : Way next start path goal
  least : ∀ other, Way next start other goal → path.length ≤ other.length

namespace Way

variable {a b c : α} {path : List α}

theorem exists_cons (h : Way next a path b) : ∃ rest, path = a :: rest := by
  cases h with
  | here => exact ⟨[], rfl⟩
  | step _ _ => exact ⟨_, rfl⟩

theorem snoc (h : Way next a path b) (edge : c ∈ next b) : Way next a (path ++ [c]) c := by
  induction h with
  | here a => exact .step edge (.here c)
  | step first _ ih => exact .step first (ih edge)

theorem reaches (h : Way next a path b) : Reaches next a b := by
  induction h with
  | here a => exact .refl
  | step edge _ ih => exact .head edge ih

/-- The goal of a way can be reached from all its nodes. -/
theorem reaches_of_mem (h : Way next a path b) (hc : c ∈ path) : Reaches next c b := by
  induction h with
  | here a =>
    rw [List.mem_singleton.1 hc]
  | step edge rest ih =>
    rcases List.mem_cons.1 hc with rfl | hc
    · exact .head edge rest.reaches
    · exact ih hc

theorem getLast?_eq (h : Way next a path b) : path.getLast? = some b := by
  induction h with
  | here a => rfl
  | step _ rest ih =>
    obtain ⟨rest', rfl⟩ := rest.exists_cons
    rwa [List.getLast?_cons_cons]

/-- What holds of the start of a way and of all successors holds of all its nodes. -/
theorem forall_mem {P : α → Prop} (h : Way next a path b) (ha : P a)
    (hnext : ∀ x, ∀ y ∈ next x, P y) : ∀ c ∈ path, P c := by
  induction h with
  | here a =>
    intro c hc
    rwa [List.mem_singleton.1 hc]
  | step edge _ ih => exact List.forall_mem_cons.2 ⟨ha, ih (hnext _ _ edge)⟩

/-- A way that leaves a set takes an edge out of it, behind a shorter way that ends in the set. -/
theorem exists_crossing {S : List α} (h : Way next a path b) (ha : a ∈ S) (hb : b ∉ S) :
    ∃ init p x, Way next a init p ∧ init.length < path.length ∧ p ∈ S ∧ x ∈ next p ∧ x ∉ S := by
  induction h with
  | here a => exact absurd ha hb
  | @step a c b path edge rest ih =>
    by_cases hc : c ∈ S
    · obtain ⟨init, p, x, hinit, hlength, hp, hx, hnew⟩ := ih hc hb
      exact ⟨a :: init, p, x, .step edge hinit, Nat.succ_lt_succ hlength, hp, hx, hnew⟩
    · obtain ⟨rest', rfl⟩ := rest.exists_cons
      exact ⟨[a], a, c, .here a, by simp, ha, edge, hc⟩

end Way

/-- The nodes of visits. -/
def visited (visits : List (Visit α)) : List α := visits.map Visit.node

@[simp] theorem visited_append (visits more : List (Visit α)) :
    visited (visits ++ more) = visited visits ++ visited more :=
  List.map_append

theorem mem_visited {visits : List (Visit α)} {a : α} :
    a ∈ visited visits ↔ ∃ v ∈ visits, v.node = a :=
  List.mem_map

/-- Taking a visit moves it from the queue, and what it meets comes last. -/
theorem append_taken (done queue found : List (Visit α)) (visit : Visit α) :
    (done ++ [visit]) ++ (queue ++ found) = (done ++ visit :: queue) ++ found := by
  simp only [List.append_assoc, List.cons_append, List.nil_append]

/-- Nodes that were met count as seen. -/
theorem seen_take {seen : List α} {done queue : List (Visit α)} {visit : Visit α}
    (hseen : ∀ a, a ∈ seen ↔ a ∈ visited (done ++ visit :: queue)) (found : List (Visit α)) :
    ∀ a, a ∈ visited found ++ seen ↔ a ∈ visited ((done ++ [visit]) ++ (queue ++ found)) := by
  intro a
  rw [append_taken, visited_append, List.mem_append, List.mem_append, hseen a, or_comm]

section Fresh

variable [DecidableEq α] {seen trail successors : List α}

theorem mem_fresh {v : Visit α} (h : v ∈ fresh seen trail successors) :
    v.node ∈ successors ∧ v.node ∉ seen ∧ v.trail = v.node :: trail := by
  induction successors generalizing seen with
  | nil => cases h
  | cons a rest ih =>
    unfold fresh at h
    split at h
    · obtain ⟨hmem, hnew, htrail⟩ := ih h
      exact ⟨List.mem_cons_of_mem a hmem, hnew, htrail⟩
    · next ha =>
      rcases List.mem_cons.1 h with rfl | h
      · exact ⟨List.mem_cons_self, ha, rfl⟩
      · obtain ⟨hmem, hnew, htrail⟩ := ih h
        exact ⟨List.mem_cons_of_mem a hmem, fun hseen => hnew (List.mem_cons_of_mem a hseen), htrail⟩

theorem nodup_visited_fresh (seen trail successors : List α) :
    (visited (fresh seen trail successors)).Nodup := by
  induction successors generalizing seen with
  | nil => exact List.nodup_nil
  | cons a rest ih =>
    unfold fresh
    split
    · exact ih seen
    · refine List.nodup_cons.2 ⟨?_, ih (a :: seen)⟩
      intro ha
      obtain ⟨v, hv, rfl⟩ := mem_visited.1 ha
      exact (mem_fresh hv).2.1 List.mem_cons_self

/-- A successor was seen before, or it is met now. -/
theorem mem_seen_or_visited_fresh (seen trail : List α) {a : α} (h : a ∈ successors) :
    a ∈ seen ∨ a ∈ visited (fresh seen trail successors) := by
  induction successors generalizing seen with
  | nil => cases h
  | cons b rest ih =>
    unfold fresh
    split
    · next hb =>
      rcases List.mem_cons.1 h with rfl | h
      · exact .inl hb
      · exact ih seen h
    · rcases List.mem_cons.1 h with rfl | h
      · exact .inr List.mem_cons_self
      · rcases ih (b :: seen) h with hseen | hmet
        · rcases List.mem_cons.1 hseen with rfl | hseen
          · exact .inr List.mem_cons_self
          · exact .inl hseen
        · exact .inr (List.mem_cons_of_mem b hmet)

/-- What is met is met in the order of the successors. -/
theorem pairwise_idxOf_fresh (seen trail successors : List α) :
    (visited (fresh seen trail successors)).Pairwise fun a b =>
      successors.idxOf a < successors.idxOf b := by
  induction successors generalizing seen with
  | nil => exact List.Pairwise.nil
  | cons c rest ih =>
    have hbehind : ∀ {seen}, c ∈ seen → (visited (fresh seen trail rest)).Pairwise fun a b =>
        (c :: rest).idxOf a < (c :: rest).idxOf b := by
      intro seen hc
      refine (ih seen).imp_of_mem fun {a b} ha hb hlt => ?_
      have hne : ∀ x ∈ visited (fresh seen trail rest), c ≠ x := by
        intro x hx
        obtain ⟨v, hv, rfl⟩ := mem_visited.1 hx
        exact ne_of_mem_of_not_mem hc (mem_fresh hv).2.1
      rw [List.idxOf_cons_ne _ (hne a ha), List.idxOf_cons_ne _ (hne b hb)]
      exact Nat.succ_lt_succ hlt
    unfold fresh
    split
    · next hc => exact hbehind hc
    · refine List.pairwise_cons.2 ⟨?_, hbehind List.mem_cons_self⟩
      intro b hb
      obtain ⟨v, hv, rfl⟩ := mem_visited.1 hb
      have hne : c ≠ v.node := ne_of_mem_of_not_mem List.mem_cons_self (mem_fresh hv).2.1
      rw [List.idxOf_cons_self, List.idxOf_cons_ne _ hne]
      exact Nat.succ_pos _

/-- What is taken from a queue, in order, until it is empty. -/
inductive Drains (next : α → List α) : List α → List (Visit α) → List (Visit α) → Prop where
  | nil (seen : List α) : Drains next seen [] []
  | take {seen : List α} {visit : Visit α} {queue taken : List (Visit α)}
      (rest : Drains next (visited (fresh seen visit.trail (next visit.node)) ++ seen)
        (queue ++ fresh seen visit.trail (next visit.node)) taken) :
      Drains next seen (visit :: queue) (visit :: taken)

/-- A bound that is not below what is taken changes nothing. -/
theorem Drains.searchFrom_eq {queue taken : List (Visit α)} (h : Drains next seen queue taken)
    {fuel : Nat} (hfuel : taken.length ≤ fuel) : searchFrom next fuel seen queue = taken := by
  induction h generalizing fuel with
  | nil seen => rw [searchFrom]
  | @take seen visit queue taken _ ih =>
    obtain ⟨fuel, rfl⟩ := Nat.exists_eq_add_of_le' (Nat.le_trans (Nat.succ_pos _) hfuel)
    exact congrArg (visit :: ·) (ih (Nat.le_of_succ_le_succ hfuel))

end Fresh

/-- A queue that spans at most two distances, the nearer one first. -/
structure Layered (queue : List (Visit α)) : Prop where
  sorted : queue.Pairwise fun v w => v.trail.length ≤ w.trail.length
  level : ∀ v ∈ queue, ∀ w ∈ queue, w.trail.length ≤ v.trail.length + 1

namespace Layered

variable {visit : Visit α} {queue found : List (Visit α)}

theorem singleton (visit : Visit α) : Layered [visit] where
  sorted := List.pairwise_singleton _ _
  level := by
    intro v hv w hw
    rw [List.mem_singleton.1 hv, List.mem_singleton.1 hw]
    exact Nat.le_succ _

theorem first_le (h : Layered (visit :: queue)) {v : Visit α} (hv : v ∈ visit :: queue) :
    visit.trail.length ≤ v.trail.length := by
  rcases List.mem_cons.1 hv with rfl | hv
  · exact Nat.le_refl _
  · exact List.rel_of_pairwise_cons h.sorted hv

/-- What is one step farther than the first visit may come last. -/
theorem take (h : Layered (visit :: queue))
    (hfound : ∀ v ∈ found, v.trail.length = visit.trail.length + 1) : Layered (queue ++ found) := by
  have hlow : ∀ v ∈ queue ++ found, visit.trail.length ≤ v.trail.length := by
    intro v hv
    rcases List.mem_append.1 hv with hv | hv
    · exact h.first_le (List.mem_cons_of_mem visit hv)
    · rw [hfound v hv]
      exact Nat.le_succ _
  have hhigh : ∀ v ∈ queue ++ found, v.trail.length ≤ visit.trail.length + 1 := by
    intro v hv
    rcases List.mem_append.1 hv with hv | hv
    · exact h.level visit List.mem_cons_self v (List.mem_cons_of_mem visit hv)
    · exact Nat.le_of_eq (hfound v hv)
  constructor
  case sorted =>
    refine List.pairwise_append.2 ⟨(List.pairwise_cons.1 h.sorted).2, ?_, ?_⟩
    · refine List.pairwise_iff_forall_sublist.2 fun {v w} hsub => ?_
      have hv : v ∈ found := hsub.subset List.mem_cons_self
      have hw : w ∈ found := hsub.subset (List.mem_cons_of_mem v List.mem_cons_self)
      exact Nat.le_of_eq ((hfound v hv).trans (hfound w hw).symm)
    · intro v hv w hw
      rw [hfound w hw]
      exact hhigh v (List.mem_append_left _ hv)
  case level =>
    intro v hv w hw
    exact Nat.le_trans (hhigh w hw) (Nat.succ_le_succ (hlow v hv))

end Layered

/-- Where a search stands that has taken some visits from its queue. -/
structure Frontier (next : α → List α) (start : α) (done queue : List (Visit α)) : Prop where
  start_met : start ∈ visited (done ++ queue)
  once : (visited (done ++ queue)).Nodup
  shortest : ∀ v ∈ done ++ queue, Shortest next start v.trail.reverse v.node
  simple : ∀ v ∈ done ++ queue, v.trail.Nodup ∧ v.trail ⊆ visited (done ++ queue)
  closed : ∀ v ∈ done, ∀ a ∈ next v.node, a ∈ visited (done ++ queue)
  layered : Layered queue

namespace Frontier

variable {start : α} {done queue : List (Visit α)}

theorem initial (next : α → List α) (start : α) : Frontier next start [] [⟨start, [start]⟩] where
  start_met := List.mem_singleton.2 rfl
  once := List.nodup_singleton start
  shortest := by
    intro v hv
    rw [List.nil_append, List.mem_singleton] at hv
    subst hv
    refine ⟨.here start, ?_⟩
    intro other hother
    obtain ⟨rest, rfl⟩ := hother.exists_cons
    simp
  simple := by
    intro v hv
    rw [List.nil_append, List.mem_singleton] at hv
    subst hv
    exact ⟨List.nodup_singleton start, List.Subset.refl _⟩
  closed := by
    intro v hv
    cases hv
  layered := .singleton _

/-- No way to a node that was not met is shorter than one step more than the next visit: it leaves
the nodes that were met, which it can only do from the queue. -/
theorem lt_length_of_not_met {visit : Visit α}
    (h : Frontier next start done (visit :: queue)) {goal : α}
    (hgoal : goal ∉ visited (done ++ visit :: queue)) {path : List α}
    (hpath : Way next start path goal) : visit.trail.length < path.length := by
  obtain ⟨init, p, x, hinit, hlength, hp, hx, hnew⟩ := hpath.exists_crossing h.start_met hgoal
  obtain ⟨v, hv, rfl⟩ := mem_visited.1 hp
  have hle : v.trail.length ≤ init.length := by
    simpa only [List.length_reverse] using (h.shortest v hv).least init hinit
  have hqueue : v ∈ visit :: queue := by
    rcases List.mem_append.1 hv with hdone | hqueue
    · exact absurd (h.closed v hdone x hx) hnew
    · exact hqueue
  calc visit.trail.length ≤ v.trail.length := h.layered.first_le hqueue
    _ ≤ init.length := hle
    _ < path.length := hlength

variable [DecidableEq α]

/-- Taking the next visit and queueing what it meets first keeps all this. -/
theorem take {visit : Visit α} {seen : List α} (h : Frontier next start done (visit :: queue))
    (hseen : ∀ a, a ∈ seen ↔ a ∈ visited (done ++ visit :: queue)) :
    Frontier next start (done ++ [visit])
      (queue ++ fresh seen visit.trail (next visit.node)) := by
  generalize hfound : fresh seen visit.trail (next visit.node) = found
  have hmet : ∀ v ∈ found, v.node ∈ next visit.node ∧ v.node ∉ visited (done ++ visit :: queue) ∧
      v.trail = v.node :: visit.trail := by
    intro v hv
    rw [← hfound] at hv
    obtain ⟨hnext, hnew, htrail⟩ := mem_fresh hv
    exact ⟨hnext, fun hold => hnew ((hseen _).2 hold), htrail⟩
  have hvisit : visit ∈ done ++ visit :: queue := List.mem_append_right _ List.mem_cons_self
  constructor
  case start_met =>
    rw [append_taken, visited_append]
    exact List.mem_append_left _ h.start_met
  case once =>
    rw [append_taken, visited_append, List.nodup_append]
    refine ⟨h.once, hfound ▸ nodup_visited_fresh _ _ _, ?_⟩
    intro a ha b hb
    obtain ⟨v, hv, rfl⟩ := mem_visited.1 hb
    rintro rfl
    exact (hmet v hv).2.1 ha
  case shortest =>
    rw [append_taken]
    intro v hv
    rcases List.mem_append.1 hv with hv | hv
    · exact h.shortest v hv
    · obtain ⟨hnext, hnew, htrail⟩ := hmet v hv
      rw [htrail, List.reverse_cons]
      refine ⟨(h.shortest visit hvisit).way.snoc hnext, ?_⟩
      intro other hother
      have hlt := h.lt_length_of_not_met hnew hother
      simp only [List.length_append, List.length_reverse, List.length_singleton]
      omega
  case simple =>
    rw [append_taken, visited_append]
    intro v hv
    rcases List.mem_append.1 hv with hv | hv
    · obtain ⟨hnodup, hsubset⟩ := h.simple v hv
      exact ⟨hnodup, List.Subset.trans hsubset (List.subset_append_left _ _)⟩
    · obtain ⟨-, hnew, htrail⟩ := hmet v hv
      obtain ⟨hnodup, hsubset⟩ := h.simple visit hvisit
      rw [htrail]
      refine ⟨List.nodup_cons.2 ⟨fun hmem => hnew (hsubset hmem), hnodup⟩, ?_⟩
      refine List.cons_subset.2 ⟨?_, List.Subset.trans hsubset (List.subset_append_left _ _)⟩
      exact List.mem_append_right _ (mem_visited.2 ⟨v, hv, rfl⟩)
  case closed =>
    rw [append_taken, visited_append]
    intro v hv a ha
    rcases List.mem_append.1 hv with hv | hv
    · exact List.mem_append_left _ (h.closed v hv a ha)
    · rw [List.mem_singleton.1 hv] at ha
      rcases mem_seen_or_visited_fresh seen visit.trail ha with hold | hnew
      · exact List.mem_append_left _ ((hseen a).1 hold)
      · exact List.mem_append_right _ (hfound ▸ hnew)
  case layered =>
    refine h.layered.take fun v hv => ?_
    rw [(hmet v hv).2.2, List.length_cons]

/-- A search that may still take as many visits as there can be nodes empties its queue. -/
theorem drains_searchFrom {pool : List α} (hpool : ∀ a, ∀ b ∈ next a, b ∈ pool) {fuel : Nat}
    {seen : List α} (hseen : ∀ a, a ∈ seen ↔ a ∈ visited (done ++ queue))
    (hmet : visited (done ++ queue) ⊆ start :: pool)
    (hfuel : done.length + fuel = pool.length + 1) (h : Frontier next start done queue) :
    Drains next seen queue (searchFrom next fuel seen queue) := by
  induction fuel generalizing done seen queue with
  | zero =>
    -- all nodes there can be were taken
    have hle : (visited (done ++ queue)).length ≤ pool.length + 1 :=
      (List.subperm_of_subset h.once hmet).length_le
    have hempty : queue = [] := by
      rw [visited, List.length_map, List.length_append] at hle
      exact List.length_eq_zero_iff.1 (by omega)
    subst hempty
    exact .nil seen
  | succ fuel ih =>
    cases queue with
    | nil => exact .nil seen
    | cons visit queue =>
      have htaken := h.take hseen
      generalize hfound : fresh seen visit.trail (next visit.node) = found at htaken
      have hmet' : visited ((done ++ [visit]) ++ (queue ++ found)) ⊆ start :: pool := by
        rw [append_taken, visited_append]
        refine List.append_subset.2 ⟨hmet, ?_⟩
        intro a ha
        obtain ⟨v, hv, rfl⟩ := mem_visited.1 ha
        exact List.mem_cons_of_mem start (hpool _ _ (mem_fresh (hfound ▸ hv)).1)
      have hrest := ih (seen_take hseen found) hmet'
        (by rw [List.length_append, List.length_singleton]; omega) htaken
      rw [searchFrom]
      exact .take (hfound ▸ hrest)

/-- What taking a visit keeps holds when the queue is empty. -/
theorem drained {P : List (Visit α) → List (Visit α) → Prop}
    (hstep : ∀ {done queue : List (Visit α)} {visit : Visit α} {seen : List α},
      Frontier next start done (visit :: queue) →
      (∀ a, a ∈ seen ↔ a ∈ visited (done ++ visit :: queue)) → P done (visit :: queue) →
      P (done ++ [visit]) (queue ++ fresh seen visit.trail (next visit.node)))
    {seen : List α} {taken : List (Visit α)} (hdrains : Drains next seen queue taken)
    (hseen : ∀ a, a ∈ seen ↔ a ∈ visited (done ++ queue)) (h : Frontier next start done queue)
    (hP : P done queue) : Frontier next start (done ++ taken) [] ∧ P (done ++ taken) [] := by
  induction hdrains generalizing done with
  | nil seen => simpa only [List.append_nil] using And.intro h hP
  | @take seen visit queue taken _ ih =>
    have hrest := ih (seen_take hseen _) (h.take hseen) (hstep h hseen hP)
    rwa [List.append_assoc] at hrest

end Frontier

variable [DecidableEq α]

section Search

variable {pool : List α} (hpool : ∀ a, ∀ b ∈ next a, b ∈ pool)
include hpool

/-- A search that may take every successor there is takes what there is to take. -/
theorem drains_search (start : α) :
    Drains next [start] [⟨start, [start]⟩] (search next pool.length start) := by
  refine (Frontier.initial next start).drains_searchFrom hpool (fun _ => Iff.rfl) ?_ ?_
  · exact List.cons_subset.2 ⟨List.mem_cons_self, List.nil_subset _⟩
  · exact Nat.zero_add _

/-- What holds at the start and is kept by taking a visit holds of a whole search. -/
theorem search_induction {start : α} {P : List (Visit α) → List (Visit α) → Prop}
    (hstart : P [] [⟨start, [start]⟩])
    (hstep : ∀ {done queue : List (Visit α)} {visit : Visit α} {seen : List α},
      Frontier next start done (visit :: queue) →
      (∀ a, a ∈ seen ↔ a ∈ visited (done ++ visit :: queue)) → P done (visit :: queue) →
      P (done ++ [visit]) (queue ++ fresh seen visit.trail (next visit.node))) :
    Frontier next start (search next pool.length start) [] ∧
      P (search next pool.length start) [] :=
  Frontier.drained hstep (drains_search hpool start) (fun _ => Iff.rfl) (.initial next start) hstart

/-- A search that may take every successor there is ends with an empty queue. -/
theorem frontier_search (start : α) :
    Frontier next start (search next pool.length start) [] :=
  (search_induction hpool (P := fun _ _ => True) trivial fun _ _ _ => trivial).1

/-- The nodes that a search lists are those that can be reached. -/
theorem mem_nodes_iff {start a : α} : a ∈ nodes next pool.length start ↔ Reaches next start a := by
  have h := frontier_search hpool start
  rw [show nodes next pool.length start = visited (search next pool.length start ++ []) by
    rw [List.append_nil]; rfl]
  constructor
  · intro ha
    obtain ⟨v, hv, rfl⟩ := mem_visited.1 ha
    exact (h.shortest v hv).way.reaches
  · intro ha
    induction ha with
    | refl => exact h.start_met
    | tail _ edge ih =>
      obtain ⟨v, hv, rfl⟩ := mem_visited.1 ih
      exact h.closed v (by simpa using hv) _ edge

/-- The way that a search gives is a shortest one and meets no node twice. -/
theorem path?_eq_some {start goal : α} {path : List α}
    (hpath : path? next pool.length start goal = some path) :
    Shortest next start path goal ∧ path.Nodup := by
  have h := frontier_search hpool start
  obtain ⟨v, hfind, rfl⟩ := Option.map_eq_some_iff.1 hpath
  have hv : v ∈ search next pool.length start ++ [] := by
    simpa using List.mem_of_find?_eq_some hfind
  have hgoal : v.node = goal := by simpa using List.find?_some hfind
  exact ⟨hgoal ▸ h.shortest v hv, List.nodup_reverse.2 (h.simple v hv).1⟩

/-- A search gives no way only if there is none. -/
theorem path?_eq_none_iff {start goal : α} :
    path? next pool.length start goal = none ↔ ¬ Reaches next start goal := by
  rw [← mem_nodes_iff hpool, path?, Option.map_eq_none_iff, List.find?_eq_none, nodes, List.mem_map]
  simp

end Search

end JarRemap.Reach
