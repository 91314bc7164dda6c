import JarRemap.Workers
import Mathlib.Data.List.Perm.Basic

/-!
# Workers in any order

Whatever order the workers take their turns in, as long as nothing has failed each item is either
finished, with its result handed in, or still pending at exactly one worker. A worker takes at most
two turns for each item of its share; once all have had as many, nothing is pending any more.
-/

namespace JarRemap.Workers

variable {α β ε : Type} {work : α → Except ε β} {items : List α} {s : State α β ε}

/-- The items that a worker has not finished. -/
def Worker.pending : Worker α → List α
  | .idle left => left
  | .busy item left => item :: left

/-- What a worker does in its turn. -/
inductive Turn (work : α → Except ε β) (i : Nat) (s : State α β ε) : State α β ε → Prop
  | rest (hdone : ∀ worker, s.workers[i]? = some worker → worker = .idle []) : Turn work i s s
  | stop {item : α} {left : List α} (hworker : s.workers[i]? = some (.idle (item :: left)))
      (hfailure : s.failure ≠ none) :
      Turn work i s { s with workers := s.workers.set i (.idle []) }
  | take {item : α} {left : List α} (hworker : s.workers[i]? = some (.idle (item :: left)))
      (hfailure : s.failure = none) :
      Turn work i s { s with workers := s.workers.set i (.busy item left) }
  | finish {item : α} {left : List α} {result : β}
      (hworker : s.workers[i]? = some (.busy item left)) (hwork : work item = .ok result) :
      Turn work i s
        { s with workers := s.workers.set i (.idle left), results := result :: s.results }
  | fail {item : α} {left : List α} {e : ε} (hworker : s.workers[i]? = some (.busy item left))
      (hwork : work item = .error e) :
      Turn work i s
        { s with workers := s.workers.set i (.idle []), failure := s.failure <|> some e }

theorem turn_cases (work : α → Except ε β) (i : Nat) (s : State α β ε) :
    Turn work i s (turn work i s) := by
  rw [turn]
  split
  · next hnone =>
    apply Turn.rest
    intro worker hworker
    rw [hnone] at hworker
    cases hworker
  · next hidle =>
    apply Turn.rest
    intro worker hworker
    rw [hidle] at hworker
    exact (Option.some.inj hworker).symm
  · next item left hworker =>
    split
    · next hfailure => exact .stop hworker (Option.isSome_iff_ne_none.1 hfailure)
    · next hfine => exact .take hworker (by simpa using hfine)
  · next item left hworker =>
    split
    · next result hwork => exact .finish hworker hwork
    · next e hwork => exact .fail hworker hwork

/-- What holds of the workers in whatever order they take their turns. -/
structure Sound (work : α → Except ε β) (items : List α) (s : State α β ε) : Prop where
  pending : ∀ worker ∈ s.workers, worker.pending ⊆ items
  failed : ∀ e, s.failure = some e → ∃ item ∈ items, work item = .error e
  finished : s.failure = none → ∃ done : List α, done.map work = s.results.map .ok ∧
    (done ++ s.workers.flatMap Worker.pending).Perm items

section Turn

variable {workers : List (Worker α)} {i : Nat} {worker next : Worker α}

/-- A worker never gets items that are not its own. -/
theorem pending_subset_of_set (h : ∀ w ∈ workers, w.pending ⊆ items)
    (hworker : workers[i]? = some worker) (hnext : next.pending ⊆ worker.pending) :
    ∀ w ∈ workers.set i next, w.pending ⊆ items := by
  intro w hw
  rcases List.mem_or_eq_of_mem_set hw with hold | rfl
  · exact h w hold
  · exact List.Subset.trans hnext (h worker (List.mem_of_getElem? hworker))

/-- What a worker finishes in its turn is taken from what is pending. -/
theorem perm_flatMap_set (hworker : workers[i]? = some worker) (finished : List α)
    (hnext : (finished ++ next.pending).Perm worker.pending) :
    (finished ++ (workers.set i next).flatMap Worker.pending).Perm
      (workers.flatMap Worker.pending) := by
  obtain ⟨hi, rfl⟩ := List.getElem?_eq_some_iff.1 hworker
  have hsplit : workers = workers.take i ++ workers[i] :: workers.drop (i + 1) := by simp
  rw [List.set_eq_take_append_cons_drop, if_pos hi]
  conv => rhs; rw [hsplit]
  rw [List.flatMap_append, List.flatMap_append, List.flatMap_cons, List.flatMap_cons]
  apply (List.perm_append_comm_assoc _ _ _).trans
  rw [← List.append_assoc finished]
  exact (hnext.append_right _).append_left _

/-- A turn of a worker that has nothing left to hand in keeps what holds of the workers. -/
theorem Sound.set_of_failure (h : Sound work items s) (hworker : s.workers[i]? = some worker)
    (hnext : next.pending ⊆ worker.pending) {failure : Option ε} (hfailure : failure ≠ none)
    (hfailed : ∀ e, failure = some e → ∃ item ∈ items, work item = .error e) :
    Sound work items { s with workers := s.workers.set i next, failure } where
  pending := pending_subset_of_set h.pending hworker hnext
  failed := hfailed
  finished := fun hnone => absurd hnone hfailure

/-- What holds of the workers still holds after a turn. -/
theorem Sound.turn (h : Sound work items s) (i : Nat) : Sound work items (turn work i s) := by
  have hcases := turn_cases work i s
  generalize Workers.turn work i s = later at hcases ⊢
  cases hcases with
  | rest hdone => exact h
  | stop hworker hfailure => exact h.set_of_failure hworker (List.nil_subset _) hfailure h.failed
  | @take item left hworker hfailure =>
    constructor
    · exact pending_subset_of_set h.pending hworker (List.Subset.refl _)
    · exact h.failed
    · intro hnone
      obtain ⟨done, hdone, hperm⟩ := h.finished hnone
      have hkeep : ((s.workers.set i (.busy item left)).flatMap Worker.pending).Perm
          (s.workers.flatMap Worker.pending) := perm_flatMap_set hworker [] (.refl _)
      exact ⟨done, hdone, (hkeep.append_left done).trans hperm⟩
  | @finish item left result hworker hwork =>
    constructor
    · exact pending_subset_of_set h.pending hworker (List.subset_cons_self item left)
    · exact h.failed
    · intro hnone
      obtain ⟨done, hdone, hperm⟩ := h.finished hnone
      have htaken : (item :: (s.workers.set i (.idle left)).flatMap Worker.pending).Perm
          (s.workers.flatMap Worker.pending) := perm_flatMap_set hworker [item] (.refl _)
      refine ⟨item :: done, ?_, ?_⟩
      · rw [List.map_cons, List.map_cons, hwork, hdone]
      · exact List.perm_middle.symm.trans ((htaken.append_left done).trans hperm)
  | @fail item left e hworker hwork =>
    have hitem : item ∈ items := h.pending _ (List.mem_of_getElem? hworker) List.mem_cons_self
    apply h.set_of_failure hworker (List.nil_subset _)
    · cases hfirst : s.failure <;> simp
    · intro first hfirst
      -- the failure is the first one, which may be older than that of this turn
      cases holder : s.failure with
      | none =>
        rw [holder] at hfirst
        cases hfirst
        exact ⟨item, hitem, hwork⟩
      | some older =>
        rw [holder] at hfirst
        exact h.failed first (holder.trans hfirst)

end Turn

theorem flatMap_pending_idle (shares : List (List α)) :
    (shares.map Worker.idle).flatMap Worker.pending = shares.flatten := by
  rw [List.flatMap_map, List.flatten_eq_flatMap]
  rfl

/-- What holds of the workers holds after any turns. -/
theorem sound_run (order : List Nat) (shares : List (List α)) :
    Sound work shares.flatten (run work order shares) := by
  have hstart : Sound work shares.flatten
      ({ workers := shares.map .idle } : State α β ε) := by
    constructor
    · intro worker hworker
      rw [← flatMap_pending_idle]
      intro item hitem
      exact List.mem_flatMap.2 ⟨worker, hworker, hitem⟩
    · intro e he
      cases he
    · intro _
      refine ⟨[], rfl, ?_⟩
      rw [List.nil_append, flatMap_pending_idle]
  have hturns : ∀ s, Sound work shares.flatten s →
      Sound work shares.flatten (order.foldl (fun s i => turn work i s) s) := by
    induction order with
    | nil => exact fun _ h => h
    | cons i order ih => exact fun s h => ih _ (h.turn i)
  exact hturns _ hstart

/-- How many turns a worker still takes at most. -/
def Worker.turnsLeft : Worker α → Nat
  | .idle left => 2 * left.length
  | .busy _ left => 2 * left.length + 1

/-- A worker has one turn less to take after its turn, and the others have as many as before. -/
theorem exists_before_turn {i j : Nat} {worker : Worker α}
    (h : (turn work i s).workers[j]? = some worker) :
    ∃ before, s.workers[j]? = some before ∧
      worker.turnsLeft ≤ before.turnsLeft - if i = j then 1 else 0 := by
  have hsame : s.workers[j]? = some worker → (i = j → worker.turnsLeft = 0) →
      ∃ before, s.workers[j]? = some before ∧
        worker.turnsLeft ≤ before.turnsLeft - if i = j then 1 else 0 := by
    intro hworker hdone
    refine ⟨worker, hworker, ?_⟩
    split
    · next hj => exact Nat.le_trans (Nat.le_of_eq (hdone hj)) (Nat.zero_le _)
    · exact Nat.le_refl _
  have hset : ∀ {old next : Worker α}, s.workers[i]? = some old →
      next.turnsLeft ≤ old.turnsLeft - 1 → (s.workers.set i next)[j]? = some worker →
      ∃ before, s.workers[j]? = some before ∧
        worker.turnsLeft ≤ before.turnsLeft - if i = j then 1 else 0 := by
    intro old next hold hnext hworker
    by_cases hj : i = j
    · subst hj
      have hi := (List.getElem?_eq_some_iff.1 hold).1
      rw [List.getElem?_set_self hi, Option.some.injEq] at hworker
      subst hworker
      exact ⟨old, hold, by rwa [if_pos rfl]⟩
    · rw [List.getElem?_set_ne hj] at hworker
      exact hsame hworker fun h => absurd h hj
  have hcases := turn_cases work i s
  generalize turn work i s = later at h hcases
  cases hcases with
  | rest hdone =>
    apply hsame h
    rintro rfl
    rw [hdone worker h]
    rfl
  | stop hworker hfailure => exact hset hworker (Nat.zero_le _) h
  | take hworker hfailure =>
    apply hset hworker _ h
    rw [Worker.turnsLeft, Worker.turnsLeft, List.length_cons]
    omega
  | finish hworker hwork => exact hset hworker (Nat.le_refl _) h
  | fail hworker hwork => exact hset hworker (Nat.zero_le _) h

theorem exists_before_turns (order : List Nat) {j : Nat} {worker : Worker α}
    (h : (order.foldl (fun s i => turn work i s) s).workers[j]? = some worker) :
    ∃ before, s.workers[j]? = some before ∧
      worker.turnsLeft ≤ before.turnsLeft - order.count j := by
  induction order generalizing s with
  | nil => exact ⟨worker, h, Nat.le_refl _⟩
  | cons i order ih =>
    obtain ⟨later, hlater, hle⟩ := ih h
    obtain ⟨before, hbefore, hturn⟩ := exists_before_turn hlater
    refine ⟨before, hbefore, ?_⟩
    rw [List.count_cons]
    by_cases hj : i = j
    · rw [if_pos hj] at hturn
      rw [if_pos (beq_iff_eq.2 hj)]
      omega
    · rw [if_neg hj] at hturn
      rw [if_neg (by simpa using hj)]
      omega

/-- Whether each worker has enough turns for its share. -/
def Enough (order : List Nat) (shares : List (List α)) : Prop :=
  ∀ i share, shares[i]? = some share → 2 * share.length ≤ order.count i

/-- Workers with enough turns have nothing left to do. -/
theorem flatMap_pending_run {order : List Nat} {shares : List (List α)} (h : Enough order shares) :
    (run work order shares).workers.flatMap Worker.pending = [] := by
  apply List.flatMap_eq_nil_iff.2
  intro worker hworker
  obtain ⟨j, hj⟩ := List.getElem?_of_mem hworker
  obtain ⟨before, hbefore, hle⟩ := exists_before_turns order hj
  rw [List.getElem?_map, Option.map_eq_some_iff] at hbefore
  obtain ⟨share, hshare, rfl⟩ := hbefore
  have henough := h j share hshare
  have hnone : worker.turnsLeft = 0 := by
    rw [Worker.turnsLeft.eq_def (.idle share)] at hle
    dsimp only at hle
    omega
  cases worker with
  | idle left =>
    rw [Worker.turnsLeft] at hnone
    have hleft : left.length = 0 := by omega
    exact List.length_eq_zero_iff.1 hleft
  | busy item left => cases hnone

variable {order : List Nat} {shares : List (List α)} {results : List β}

/-- Workers that do not fail finish every item, once and with its own result. -/
theorem finished_of_outcome (henough : Enough order shares)
    (h : (run work order shares).outcome = .ok results) :
    ∃ done : List α, done.map work = results.map .ok ∧ done.Perm shares.flatten := by
  rw [State.outcome] at h
  split at h
  · cases h
  · next hnone =>
    cases h
    obtain ⟨done, hdone, hperm⟩ := (sound_run order shares).finished hnone
    rw [flatMap_pending_run henough, List.append_nil] at hperm
    refine ⟨done.reverse, ?_, done.reverse_perm.trans hperm⟩
    rw [List.map_reverse, List.map_reverse, hdone]

/-- Workers fail only with the failure of an item. -/
theorem failed_of_outcome {e : ε} (h : (run work order shares).outcome = .error e) :
    ∃ item ∈ shares.flatten, work item = .error e := by
  rw [State.outcome] at h
  split at h
  · next first hfirst =>
    cases h
    exact (sound_run order shares).failed _ hfirst
  · cases h

theorem enough_sequential (shares : List (List α)) : Enough (sequential shares) shares := by
  have hfrom : ∀ k i share, shares[i]? = some share → 2 * share.length ≤
      ((shares.zipIdx k).flatMap fun p => List.replicate (2 * p.1.length) p.2).count (k + i) := by
    induction shares with
    | nil =>
      intro k i share h
      cases h
    | cons first shares ih =>
      intro k i share h
      rw [List.zipIdx_cons, List.flatMap_cons, List.count_append]
      cases i with
      | zero =>
        cases h
        simp
      | succ i =>
        have hlater := ih (k + 1) i share h
        rw [Nat.add_right_comm] at hlater
        exact Nat.le_add_left_of_le hlater
  intro i share h
  have hcount := hfrom 0 i share h
  rwa [Nat.zero_add] at hcount

theorem flatten_chunksOf {size : Nat} (hsize : 0 < size) (l : List α) :
    (chunksOf size l).flatten = l := by
  induction l using chunksOf.induct size with
  | case1 l h =>
    rw [chunksOf, if_pos h]
    rcases h with rfl | h
    · rfl
    · omega
  | case2 l h ih =>
    rw [chunksOf, if_neg h, List.flatten_cons, ih, List.take_append_drop]

/-- Every item is in one share. -/
theorem flatten_shares (workers : Nat) (l : List α) : (Workers.shares workers l).flatten = l := by
  cases l with
  | nil => simp [Workers.shares, chunksOf]
  | cons item l =>
    apply flatten_chunksOf
    apply Nat.div_pos
    · rw [List.length_cons]
      omega
    · exact Nat.le_max_right workers 1

/-- However many workers there are, each item is worked on once. -/
theorem finished_of_workAll {workers : Nat} (h : workAll work workers items = .ok results) :
    ∃ done : List α, done.map work = results.map .ok ∧ done.Perm items := by
  have hfinished := finished_of_outcome (enough_sequential _) h
  rwa [flatten_shares] at hfinished

theorem foldl_turn_of_ok {f : α → β} (h : ∀ item ∈ items, work item = .ok (f item))
    (results : List β) :
    (List.replicate (2 * items.length) 0).foldl (fun s i => turn work i s)
      { workers := [.idle items], results } =
      { workers := [.idle []], results := (items.map f).reverse ++ results } := by
  induction items generalizing results with
  | nil => rfl
  | cons item items ih =>
    rw [List.forall_mem_cons] at h
    have hturn : turn work 0 (turn work 0 { workers := [.idle (item :: items)], results }) =
        { workers := [.idle items], results := f item :: results } := by
      simp [turn, h.1]
    rw [List.length_cons, Nat.mul_succ, List.replicate_succ, List.replicate_succ, List.foldl_cons,
      List.foldl_cons, hturn, ih h.2, List.map_cons, List.reverse_cons, List.append_assoc]
    rfl

/-- One worker that never fails works the items off in order. -/
theorem workAll_one {f : α → β} (h : ∀ item ∈ items, work item = .ok (f item)) :
    workAll work 1 items = .ok (items.map f) := by
  cases items with
  | nil => simp [workAll, shares, chunksOf, sequential, run, State.outcome]
  | cons item items =>
    have hshares : shares 1 (item :: items) = [item :: items] := by
      simp [shares, chunksOf]
    have horder : sequential [item :: items] = List.replicate (2 * (item :: items).length) 0 :=
      List.append_nil _
    rw [workAll, hshares, horder, run]
    change State.outcome (List.foldl _ { workers := [.idle (item :: items)] } _) = _
    rw [foldl_turn_of_ok h, List.append_nil, State.outcome]
    dsimp only
    rw [List.reverse_reverse]

end JarRemap.Workers

/-!
## Workers that are done

However the turns fell so far, the workers can get done. Once they are, the order of the turns shows
only in the order of the results, and in which one of several failures is reported.
-/

namespace JarRemap.Workers

variable {α β ε : Type} {work : α → Except ε β} {s : State α β ε} {order : List Nat}
  {shares : List (List α)} {items : List α}

end JarRemap.Workers
