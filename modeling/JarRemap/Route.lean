import JarRemap.Reach
import JarRemap.Tree

/-!
# Routes

The chain of namespaces an artifact passes through: a shortest way in the graph of the tree. If
there is none from where the artifact is, the way from a fallback namespace is taken instead, with a
first hop that leaves the namespace the artifact is in.
-/

namespace JarRemap

/-- A step from one namespace to another. -/
structure Hop where
  source : Namespace
  target : Namespace
deriving DecidableEq, Repr

/-- A hop in words. -/
def Hop.text (h : Hop) : String := h.source.name ++ " -> " ++ h.target.name

/-- Why there is no route. -/
inductive RouteError where
  | unknownNamespace (e : UnknownNamespace)
  | noPath (dev fallback prod : String)
deriving DecidableEq, Repr

/-- What is said of a namespace that a tree does not have. -/
def UnknownNamespace.message (e : UnknownNamespace) : String := "Unknown namespace " ++ e.name

/-- The error in words. -/
def RouteError.message : RouteError → String
  | unknownNamespace e => e.message
  | noPath dev fallback prod =>
      "No remap path from " ++ dev ++ " (or " ++ fallback ++ ") to " ++ prod

namespace MappingTree

/-- How many neighbours all namespaces have together; no search can meet more. -/
def edgeCount (t : MappingTree) : Nat := t.graph.values.flatten.length

/-- A shortest way between two namespaces. -/
def shortestWay? (t : MappingTree) (start goal : String) : Option (List String) :=
  Reach.path? t.neighbours t.edgeCount start goal

/-- The way through the fallback namespace, if the tree has it and it is another one. -/
def fallbackWay? (t : MappingTree) (dev fallback prod : String) : Option (List String) :=
  if fallback = prod then some [dev, prod]
  else if t.namespaces.contains fallback && fallback ≠ dev then
    (t.shortestWay? fallback prod).map (dev :: ·)
  else none

/-- The hops between the namespaces of a way. -/
def hops (t : MappingTree) (path : List String) : Except UnknownNamespace (List Hop) :=
  (path.zip path.tail).mapM fun (a, b) => do
    return ⟨← t.namespace? a, ← t.namespace? b⟩

/-- The hops an artifact needs from where it is to where it shall be. None are needed if that is the
same namespace, whether the tree has it or not. -/
def resolve (t : MappingTree) (dev fallback prod : String) : Except RouteError (List Hop) :=
  if dev = prod then .ok []
  else do
    let _ ← (t.namespace? dev).mapError .unknownNamespace
    let _ ← (t.namespace? prod).mapError .unknownNamespace
    match t.shortestWay? dev prod <|> t.fallbackWay? dev fallback prod with
    | some path => (t.hops path).mapError .unknownNamespace
    | none => .error (.noPath dev fallback prod)

end MappingTree

end JarRemap
