import JarRemap.Descriptor
import JarRemap.OrderedMap
import JarRemap.Record

/-!
# Adapting a source

The stages between a parser and the tree, always in the same order: namespaces are renamed, the
records are keyed by another namespace, namespaces nobody asked for are left out, and at last the
caller may edit each record.
-/

namespace JarRemap

namespace Source

/-- Rename namespaces; records hold names by position and stay. -/
def rename (renames : OrderedMap String String) (s : Source) : Source :=
  let new (namespaceName : String) := (renames.get? namespaceName).getD namespaceName
  { s with
    key := new s.key
    destinations := s.destinations.map new
    lineage := s.lineage.map new }

/-- The new key of each class that is named in a column; the last record of a class wins. -/
def rekeyedClasses (column : Nat) (records : List Record) : OrderedMap String String :=
  .ofList <| records.filterMap fun r =>
    match r.element, r.key?, r.name? column with
    | .type, some key, some name => some (key, name)
    | _, _, _ => none

end Source

namespace Element

/-- Write the owner and the descriptor of an element under other class names. -/
def renameClasses (f : ClassMap) : Element → Element
  | type => type
  | field owner desc => field (f.image owner) (desc.map (Descriptor.rename f))
  | method owner desc => method (f.image owner) (desc.map (Descriptor.rename f))
  | param owner name desc index => param (f.image owner) name (desc.map (Descriptor.rename f)) index

def isParam : Element → Bool
  | param .. => true
  | _ => false

end Element

/-- Exchange the first member of a list with the one at an index. -/
def swapFirst {α : Type} (i : Nat) (l : List α) : List α :=
  match l, l[i]? with
  | a :: _, some b => (l.set i a).set 0 b
  | _, _ => l

namespace Record

/-- Key the names by a column. A parameter is found by its index, so its name may be missing; any
other record without a name in the column is keyed by its old key. -/
def rekeyNames (column : Nat) (r : Record) : Record :=
  if r.element.isParam || (r.name? column).isSome then
    { r with names := swapFirst column r.names }
  else { r with names := r.names.set column r.key? }

end Record

namespace Source

/-- The new names of methods, by owner, old name and descriptor, after their records were keyed by a
column. -/
def rekeyedMethods (column : Nat) (records : List Record) :
    OrderedMap (String × String × Option String) String :=
  .ofList <| records.filterMap fun r =>
    match r.element, r.name? column, r.key? with
    | .method owner desc, some old, some new => some ((owner, old, desc), new)
    | _, _, _ => none

/-- Name the method of a parameter by the key of the method's own record. -/
def renameMethodOf (methods : OrderedMap (String × String × Option String) String) (r : Record) :
    Record :=
  match r.element with
  | .param owner method desc index =>
      { r with
        element := .param owner ((methods.get? (owner, method, desc)).getD method) desc index }
  | _ => r

/-- Key every record by a column. -/
def rekeyColumn (column : Nat) (s : Source) : Source :=
  let classes := rekeyedClasses column s.records
  let keyed := s.records.map fun r =>
    { r with element := r.element.renameClasses classes.get? }.rekeyNames column
  let methods := rekeyedMethods column keyed
  { s with
    key := (s.namespaces[column]?).getD s.key
    destinations := (swapFirst column s.namespaces).tail
    records := keyed.map (renameMethodOf methods) }

/-- Key every record by a namespace. A source that does not know the namespace stays. -/
def rekey (namespaceName : String) (s : Source) : Source :=
  if s.key = namespaceName then s
  else match s.column? namespaceName with
    | none => s
    | some column => s.rekeyColumn column

/-- Which columns a filter keeps: the key, and the namespaces in the filter. -/
def keptColumns (filter : List String) (s : Source) : List Bool :=
  true :: s.destinations.map fun name => filter.contains name

/-- The members of a list whose flag is set. -/
def select {α : Type} (flags : List Bool) (l : List α) : List α :=
  ((flags.zip l).filter Prod.fst).map Prod.snd

/-- Leave out every destination that is not in the filter. An empty filter keeps all of them. -/
def keep (filter : List String) (s : Source) : Source :=
  if filter.isEmpty then s
  else
    let flags := s.keptColumns filter
    { s with
      destinations := select flags.tail s.destinations
      records := s.records.map fun r => { r with names := select flags r.names } }

end Source

/-- What a caller makes of each record, given the namespaces; no record drops it. -/
abbrev RecordEdit := List String → Record → Option Record

/-- How a source is adapted before it is merged. -/
structure Adaptation where
  /-- New names for namespaces. -/
  renames : OrderedMap String String := {}
  /-- The namespace to key records by. -/
  source : String
  /-- The destinations to keep; all of them if there are none here. -/
  filter : List String := []
  /-- What the caller makes of each record. -/
  edit : Option RecordEdit := none

namespace Source

/-- Let a caller edit every record, and fit the names of what comes back. -/
def edit (f : RecordEdit) (s : Source) : Source :=
  { s with records := (s.records.filterMap (f s.namespaces)).map (Record.fit s.width) }

/-- Run all stages. -/
def adapt (a : Adaptation) (s : Source) : Source :=
  let s := ((s.rename a.renames).rekey a.source).keep a.filter
  match a.edit with
  | none => s
  | some f => s.edit f

end Source

end JarRemap
