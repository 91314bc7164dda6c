/-!
# Workers

Items are worked on by several workers, each with its own share. The workers take turns in any order
at the two places where they touch what they share: before an item a worker stops if any worker has
failed, and after it the worker hands in the result, or the failure if there is none yet.
-/

namespace JarRemap.Workers

variable {α β ε : Type}

/-- A worker. -/
inductive Worker (α : Type) where
  /-- About to take the next item of what is left. -/
  | idle (left : List α)
  /-- Working on an item. -/
  | busy (item : α) (left : List α)
deriving Repr

/-- The workers and what they share. -/
structure State (α β ε : Type) where
  workers : List (Worker α)
  /-- The results, the last one first. -/
  results : List β := []
  failure : Option ε := none

def turn (work : α → Except ε β) (i : Nat) (s : State α β ε) : State α β ε :=
  match s.workers[i]? with
  | none | some (.idle []) => s
  | some (.idle (item :: left)) =>
      { s with
        workers := s.workers.set i (if s.failure.isSome then .idle [] else .busy item left) }
  | some (.busy item left) =>
      match work item with
      | .ok result =>
          { s with workers := s.workers.set i (.idle left), results := result :: s.results }
      | .error e =>
          { s with workers := s.workers.set i (.idle []), failure := s.failure <|> some e }

/-- Let workers take turns in an order. -/
def run (work : α → Except ε β) (order : List Nat) (shares : List (List α)) : State α β ε :=
  order.foldl (fun s i => turn work i s) { workers := shares.map .idle }

/-- The order in which each worker finishes before the next one starts. -/
def sequential (shares : List (List α)) : List Nat :=
  shares.zipIdx.flatMap fun (share, i) => List.replicate (2 * share.length) i

/-- What the workers have achieved. -/
def State.outcome (s : State α β ε) : Except ε (List β) :=
  match s.failure with
  | some e => .error e
  | none => .ok s.results.reverse

/-- Cut a list into pieces of a size, which is at least one. -/
def chunksOf (size : Nat) (l : List α) : List (List α) :=
  if l = [] ∨ size = 0 then []
  else l.take size :: chunksOf size (l.drop size)
termination_by l.length
decreasing_by
  rename_i h
  have : 0 < l.length := List.length_pos_iff.2 fun e => h (.inl e)
  rw [List.length_drop]
  omega

/-- Share items out to at most so many workers, in pieces of one size. -/
def shares (workers : Nat) (l : List α) : List (List α) :=
  let workers := max workers 1
  chunksOf ((l.length + workers - 1) / workers) l

/-- Work on all items. -/
def workAll (work : α → Except ε β) (workers : Nat) (l : List α) : Except ε (List β) :=
  (run work (sequential (shares workers l)) (shares workers l)).outcome

end JarRemap.Workers
