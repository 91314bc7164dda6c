import JarRemap.Namespace
import JarRemap.OrderedMap
import JarRemap.Record

/-!
# The mapping tree

All known classes with their fields, methods and parameters, and a name for each of them in every
namespace. Namespaces are columns; the first is the source namespace, in which owners and
descriptors are written. The graph says which namespaces some source connects.
-/

namespace JarRemap

/-- The names of one element by column. Columns at the end that were never set are left out. -/
abbrev Names := List (Option String)

namespace Names

/-- The name in a column. -/
def get? (names : Names) (column : Nat) : Option String := (names[column]?).join

def set (names : Names) (column : Nat) (name : String) : Names :=
  List.set (names ++ List.replicate (column + 1 - names.length) none) column (some name)

/-- Setting a column changes the name in that column alone. -/
theorem get?_set (names : Names) (column other : Nat) (name : String) :
    (names.set column name).get? other =
      if other = column then some name else names.get? other := by
  unfold set get?
  rw [List.getElem?_set]
  by_cases h : other = column
  · subst h
    rw [if_pos rfl, if_pos (by rw [List.length_append, List.length_replicate]; omega), if_pos rfl]
    rfl
  · rw [if_neg (fun e => h e.symm), if_neg h, List.getElem?_append]
    split
    · rfl
    · next hl =>
      rw [List.getElem?_eq_none (by omega : names.length ≤ other), List.getElem?_replicate]
      split <;> rfl

/-- The names of an element that has none but its source name. -/
def ofSource (name : String) : Names := [some name]

/-- The name in the source namespace. -/
def source (names : Names) : String := (get? names 0).getD ""

end Names

/-- The parameter of a method, found by its index among the local variables. -/
structure ParamMapping where
  index : UInt16
  names : Names := []
  comment : Option String := none
deriving DecidableEq, Repr

/-- A field with its descriptor, if any source gave one. -/
structure FieldMapping where
  names : Names
  desc : Option String := none
  comment : Option String := none
deriving DecidableEq, Repr

/-- A method with its descriptor, if any source gave one. -/
structure MethodMapping where
  names : Names
  desc : Option String := none
  comment : Option String := none
  params : List ParamMapping := []
deriving DecidableEq, Repr

/-- A class with its members. -/
structure ClassMapping where
  names : Names
  comment : Option String := none
  fields : List FieldMapping := []
  methods : List MethodMapping := []
deriving DecidableEq, Repr

/-- Whether two descriptors may belong to one member: a missing one fits any. -/
def descriptorsFit : Option String → Option String → Bool
  | some a, some b => a == b
  | _, _ => true

namespace MethodMapping

def param? (m : MethodMapping) (index : UInt16) : Option ParamMapping :=
  m.params.find? fun p => p.index = index

end MethodMapping

namespace ClassMapping

def ofSource (name : String) : ClassMapping := { names := .ofSource name }

/-- The first field with a source name and a fitting descriptor. -/
def field? (c : ClassMapping) (name : String) (desc : Option String) : Option FieldMapping :=
  c.fields.find? fun f => f.names.source = name && descriptorsFit f.desc desc

/-- The first method with a source name and a fitting descriptor. -/
def method? (c : ClassMapping) (name : String) (desc : Option String) : Option MethodMapping :=
  c.methods.find? fun m => m.names.source = name && descriptorsFit m.desc desc

end ClassMapping

/-- All known symbols in all known namespaces. -/
structure MappingTree where
  /-- The namespaces in column order, the source namespace first. -/
  namespaces : List String := []
  /-- The namespaces marked as readable. -/
  named : List String := []
  /-- The namespaces that some source connects with each namespace. -/
  graph : OrderedMap String (List String) := {}
  /-- The classes, each under the source name it was first seen with. -/
  classes : OrderedMap String ClassMapping := {}

/-- A namespace that a tree does not have. -/
structure UnknownNamespace where
  name : String
deriving DecidableEq, Repr

namespace MappingTree

/-- The namespaces behind the first. -/
def destinations (t : MappingTree) : List String := t.namespaces.tail

def column? (t : MappingTree) (name : String) : Option Nat := t.namespaces.idxOf? name

/-- Whether a namespace holds readable names. -/
def isNamed (t : MappingTree) (name : String) : Bool :=
  name == Namespace.readable || t.named.contains name

def namespace? (t : MappingTree) (name : String) : Except UnknownNamespace Namespace :=
  if t.namespaces.contains name then .ok ⟨name, t.isNamed name⟩ else .error ⟨name⟩

/-- The namespaces connected with a namespace, in the order in which they were connected. -/
def neighbours (t : MappingTree) (name : String) : List String := (t.graph.get? name).getD []

/-- The class stored under a source name. -/
def class? (t : MappingTree) (name : String) : Option ClassMapping := t.classes.get? name

/-- The source names of classes by their name in a column; of two classes with one name the later
one counts. -/
def sourceNames (t : MappingTree) (column : Nat) : OrderedMap String String :=
  .ofList <| t.classes.values.filterMap fun c =>
    (c.names.get? column).map fun name => (name, c.names.source)

def findClass? (t : MappingTree) (name : String) (column : Nat) : Option ClassMapping :=
  if column = 0 then t.class? name
  else ((t.sourceNames column).get? name).bind t.class?

/-- Mark a namespace as readable. -/
def declareNamed (t : MappingTree) (name : String) : MappingTree :=
  { t with named := addNew t.named name }

/-- Note that a second namespace can be reached from a first. -/
def addNeighbour (graph : OrderedMap String (List String)) (a b : String) :
    OrderedMap String (List String) :=
  (graph.insertNew a []).modify a fun neighbours => addNew neighbours b

/-- Connect two namespaces, unless they are one. -/
def connect (t : MappingTree) (a b : String) : MappingTree :=
  if a = b then t else { t with graph := addNeighbour (addNeighbour t.graph a b) b a }

end MappingTree

end JarRemap
