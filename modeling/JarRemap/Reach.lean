/-!
# Breadth-first search

One traversal of a graph that is given by the successors of each node. It lists every node that can
be reached from a start exactly once, nearer nodes first, together with a shortest way to it. Routes
between namespaces and the ancestors of a class are both read off this list.
-/

namespace JarRemap.Reach

variable {α : Type} [DecidableEq α]

/-- A node that was reached, and the nodes on the way to it: itself first, the start last. -/
structure Visit (α : Type) where
  node : α
  trail : List α
deriving Repr

/-- The visits of the successors of a node that are not among the nodes seen, each once. -/
def fresh (seen : List α) (trail : List α) : List α → List (Visit α)
  | [] => []
  | a :: rest =>
      if a ∈ seen then fresh seen trail rest else ⟨a, a :: trail⟩ :: fresh (a :: seen) trail rest

/-- Take the nodes of a queue in order and put what they reach first behind it. The number bounds
how many nodes are taken. -/
def searchFrom (next : α → List α) : Nat → List α → List (Visit α) → List (Visit α)
  | _, _, [] => []
  | 0, _, queue => queue
  | fuel + 1, seen, visit :: queue =>
      let found := fresh seen visit.trail (next visit.node)
      visit :: searchFrom next fuel (found.map Visit.node ++ seen) (queue ++ found)

/-- All nodes that can be reached from a start, in the order in which a queue meets them, if no more
than `bound` nodes besides the start can be reached. -/
def search (next : α → List α) (bound : Nat) (start : α) : List (Visit α) :=
  searchFrom next (bound + 1) [start] [⟨start, [start]⟩]

/-- The nodes that can be reached from a start. -/
def nodes (next : α → List α) (bound : Nat) (start : α) : List α :=
  (search next bound start).map Visit.node

/-- A shortest way from a start to a goal, both included. -/
def path? (next : α → List α) (bound : Nat) (start goal : α) : Option (List α) :=
  ((search next bound start).find? fun visit => visit.node = goal).map fun visit =>
    visit.trail.reverse

end JarRemap.Reach
