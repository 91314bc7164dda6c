/-!
# Records

What every mapping source is read into: one record for each element it names, with a name for each
of its namespaces. Owners and descriptors are written in the first namespace, by which the elements
are keyed.
-/

namespace JarRemap

/-- What a record names. -/
inductive Element where
  /-- A class. -/
  | type
  /-- A field of a class, with its descriptor if the source gives one. -/
  | field (owner : String) (desc : Option String)
  /-- A method of a class, with its descriptor if the source gives one. -/
  | method (owner : String) (desc : Option String)
  /-- The parameter of a method at an index of its local variables. -/
  | param (owner method : String) (methodDesc : Option String) (index : UInt16)
deriving DecidableEq, Repr

/-- An element with its name in each namespace of its source. -/
structure Record where
  element : Element
  names : List (Option String)
  comment : Option String := none
deriving DecidableEq, Repr

namespace Record

def name? (r : Record) (column : Nat) : Option String := (r.names[column]?).join

def key? (r : Record) : Option String := r.name? 0

/-- Cut the names, or pad them with missing ones, to a length. -/
def fit (n : Nat) (r : Record) : Record :=
  { r with names := r.names.take n ++ List.replicate (n - r.names.length) none }

@[simp] theorem length_names_fit (n : Nat) (r : Record) : (r.fit n).names.length = n := by
  simp [fit]; omega

theorem fit_of_length {n : Nat} {r : Record} (h : r.names.length = n) : r.fit n = r := by
  subst h
  simp [fit]

end Record

/-- A name as a table writes it: no text is no name. -/
def nameOrNone (s : List Char) : Option String :=
  if s.isEmpty then none else some (String.ofList s)

/-- Everything read from one mapping source. -/
structure Source where
  /-- The namespace whose names are the keys. -/
  key : String
  /-- The other namespaces. -/
  destinations : List String
  /-- The namespaces in the order in which they come from each other. -/
  lineage : List String
  records : List Record
deriving DecidableEq, Repr

namespace Source

/-- All namespaces, in the order of the names of a record. -/
def namespaces (s : Source) : List String := s.key :: s.destinations

/-- A source without records, whose lineage is its list of namespaces. -/
def start (key : String) (destinations : List String) : Source :=
  ⟨key, destinations, key :: destinations, []⟩

/-- How many namespaces there are. -/
def width (s : Source) : Nat := s.destinations.length + 1

/-- Append a record, with exactly one name for each namespace. -/
def push (s : Source) (r : Record) : Source := { s with records := s.records ++ [r.fit s.width] }

/-- Append records in order. -/
def pushAll (s : Source) (records : List Record) : Source :=
  { s with records := s.records ++ records.map (Record.fit s.width) }

def column? (s : Source) (name : String) : Option Nat := s.namespaces.idxOf? name

end Source

end JarRemap
