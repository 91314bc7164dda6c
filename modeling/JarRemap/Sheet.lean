import JarRemap.Adapt
import JarRemap.Merge
import JarRemap.Text.Slice

/-!
# Sources by columns

The stages and the merge as a program runs them. All namespaces of a source stand in one list, the key
first. Names of a record, and the columns of a tree that they go to, are looked up at the index of a
namespace, and an index outside of the list ends the program.
-/

namespace JarRemap

namespace Checked

variable {ε α : Type}

/-- Replace the element at an index. -/
def put (l : List α) (i : Nat) (a : α) : Checked ε (List α) := do
  let _ ← at_ l i
  return l.set i a

/-- Exchange the elements at two indices. -/
def swap (l : List α) (i j : Nat) : Checked ε (List α) := do
  let a ← at_ l i
  let b ← at_ l j
  return (l.set i b).set j a

/-- Change the element at an index. -/
def modifyAt (l : List α) (i : Nat) (f : α → Checked ε α) : Checked ε (List α) := do
  put l i (← f (← at_ l i))

/-- Change the first element that is looked for. If there is none, one may be pushed, to be changed
in its stead. -/
def changeFirst (p : α → Bool) (new : Option α) (f : α → Checked ε α) (l : List α) :
    Checked ε (List α) :=
  match l.findIdx? p, new with
  | some i, _ => modifyAt l i f
  | none, some a => do
      let pushed := l ++ [a]
      modifyAt pushed (← sub pushed.length 1) f
  | none, none => return l

end Checked

/-- What a caller makes of each record, given the namespaces and what it remembers of the records
before. -/
structure Editor where
  Memory : Type
  start : Memory
  edit : List String → Record → Memory → Option Record × Memory

namespace Editor

/-- Edit records in order, and fit the names of what comes back. -/
def run (e : Editor) (namespaces : List String) : e.Memory → List Record → List Record
  | _, [] => []
  | memory, r :: rest =>
      let (made, memory) := e.edit namespaces r memory
      let more := e.run namespaces memory rest
      match made with
      | some made => made.fit namespaces.length :: more
      | none => more

/-- An editor that remembers nothing. -/
def ofEdit (f : RecordEdit) : Editor := ⟨Unit, (), fun namespaces r _ => (f namespaces r, ())⟩

end Editor

/-- The stages between a parser and the tree. -/
structure Pipeline where
  /-- New names for namespaces. -/
  renames : OrderedMap String String
  /-- The namespace to key records by. -/
  source : String
  /-- The destinations to keep; all of them if there are none here. -/
  filter : List String
  /-- Who edits the records at last. -/
  editor : Option Editor

/-- An adaptation as a pipeline. -/
def Adaptation.pipeline (a : Adaptation) : Pipeline :=
  ⟨a.renames, a.source, a.filter, a.edit.map Editor.ofEdit⟩

/-- Everything read from one mapping source, with all namespaces in one list. -/
structure Sheet where
  namespaces : List String
  lineage : List String
  records : List Record

namespace Sheet

open Checked (at_ put swap sub modifyAt changeFirst fail)

variable {ε : Type}

def ofSource (s : Source) : Sheet := ⟨s.namespaces, s.lineage, s.records⟩

/-- There is a namespace, and every record has one name for each namespace. -/
structure Even (s : Sheet) : Prop where
  nonempty : s.namespaces ≠ []
  full : ∀ r ∈ s.records, r.names.length = s.namespaces.length

/-!
## Stages
-/

/-- Rename namespaces. -/
def rename (renames : OrderedMap String String) (s : Sheet) : Sheet :=
  let new (namespaceName : String) := (renames.get? namespaceName).getD namespaceName
  { s with namespaces := s.namespaces.map new, lineage := s.lineage.map new }

/-- Key the names of a record by a column. A parameter may have no name there; any other record
without one is keyed by its old key. -/
def rekeyNames (column : Nat) (r : Record) : Checked ε Record := do
  if r.element.isParam then return { r with names := ← swap r.names 0 column }
  else if (← at_ r.names column).isSome then return { r with names := ← swap r.names 0 column }
  else return { r with names := ← put r.names column (← at_ r.names 0) }

/-- Key every record by a column. -/
def rekeyColumn (column : Nat) (s : Sheet) : Checked ε Sheet := do
  let classes := Source.rekeyedClasses column s.records
  let keyed ← s.records.mapM fun r =>
    rekeyNames column { r with element := r.element.renameClasses classes.get? }
  let methods := Source.rekeyedMethods column keyed
  return { s with
    namespaces := ← swap s.namespaces 0 column
    records := keyed.map (Source.renameMethodOf methods) }

/-- Key every record by a namespace, if it is known. -/
def rekey (namespaceName : String) (s : Sheet) : Checked ε Sheet := do
  if (← at_ s.namespaces 0) = namespaceName then return s
  else
    match s.namespaces.idxOf? namespaceName with
    | none => return s
    | some column => s.rekeyColumn column

/-- Whether a filter keeps a column. -/
def keeps (filter : List String) (namespaces : List String) (column : Nat) : Checked ε Bool := do
  if column = 0 then return true else return filter.contains (← at_ namespaces column)

/-- Take names out of their columns; a name that was taken is missing from then on. -/
def takeNames : List Nat → List (Option String) → Checked ε (List (Option String))
  | [], _ => return []
  | column :: columns, names => do
      let name ← at_ names column
      return name :: (← takeNames columns (names.set column none))

/-- Leave out every destination that is not in the filter. An empty filter keeps all of them. -/
def keep (filter : List String) (s : Sheet) : Checked ε Sheet := do
  if filter.isEmpty then return s
  else
    let columns ← (List.range s.namespaces.length).filterM (keeps filter s.namespaces)
    if columns.length = s.namespaces.length then return s
    else
      let namespaces ← columns.mapM (at_ s.namespaces)
      let records ← s.records.mapM fun r => do
        return { r with names := ← takeNames columns r.names }
      return { s with namespaces, records }

/-- Let a caller edit every record. -/
def edit (s : Sheet) (e : Editor) : Sheet :=
  { s with records := e.run s.namespaces e.start s.records }

/-- What there is before the first stage and after each stage. -/
def stages (p : Pipeline) (s : Sheet) : Checked ε (List Sheet) := do
  let renamed := s.rename p.renames
  let keyed ← renamed.rekey p.source
  let kept ← keyed.keep p.filter
  return [s, renamed, keyed, kept] ++ (p.editor.map kept.edit).toList

/-!
## Merge
-/

/-- Write a name into a column, behind as many missing names as it takes. -/
def setName (names : Names) (column : Nat) (name : String) : Checked ε Names :=
  put (names ++ List.replicate (column + 1 - names.length) none) column (some name)

/-- Write a name into the column at its index. A missing name changes nothing. -/
def writeAt (columns : List Nat) (names : Names) : Option String × Nat → Checked ε Names
  | (some name, offset) => do setName names (← at_ columns offset) name
  | (none, _) => return names

/-- Write the names of a record from a position on. -/
def write (names : Names) (columns : List Nat) (r : Record) (start : Nat) : Checked ε Names :=
  (r.names.zipIdx.drop start).foldlM (writeAt columns) names

/-- Take over what a record says of a field. -/
def takeField (columns : List Nat) (desc : Option String) (r : Record) (f : FieldMapping) :
    Checked ε FieldMapping := do
  return {
    names := ← write f.names columns r 1
    desc := f.desc <|> desc
    comment := r.commentOver f.comment }

/-- Take over what a record says of a method. -/
def takeMethod (columns : List Nat) (desc : Option String) (r : Record) (m : MethodMapping) :
    Checked ε MethodMapping := do
  return { m with
    names := ← write m.names columns r 1
    desc := m.desc <|> desc
    comment := r.commentOver m.comment }

/-- Take over what a record says of a parameter, with the name in its first column. -/
def takeParam (columns : List Nat) (r : Record) (p : ParamMapping) : Checked ε ParamMapping := do
  return { p with names := ← write p.names columns r 0, comment := r.commentOver p.comment }

/-- Take over what a record says of the parameter of a method at an index. -/
def takeParamOf (columns : List Nat) (index : UInt16) (r : Record) (m : MethodMapping) :
    Checked ε MethodMapping := do
  return { m with
    params := ← changeFirst (·.index = index) (some { index }) (takeParam columns r) m.params }

/-- Take over what a record says of a class. -/
def annotate (columns : List Nat) (r : Record) (c : ClassMapping) : Checked ε ClassMapping := do
  return { c with names := ← write c.names columns r 1, comment := r.commentOver c.comment }

def annotateField (v : KeyView) (columns : List Nat) (desc : Option String) (r : Record)
    (c : ClassMapping) : Checked ε ClassMapping := do
  match r.key? with
  | none => return c
  | some key =>
      let new : Option FieldMapping := if v.creates then some { names := .ofSource key } else none
      return { c with
        fields := ←
          changeFirst (·.isFor v.column key desc) new (takeField columns desc r) c.fields }

def annotateMethod (v : KeyView) (columns : List Nat) (desc : Option String) (r : Record)
    (c : ClassMapping) : Checked ε ClassMapping := do
  match r.key? with
  | none => return c
  | some key =>
      let new : Option MethodMapping := if v.creates then some { names := .ofSource key } else none
      return { c with
        methods := ←
          changeFirst (·.isFor v.column key desc) new (takeMethod columns desc r) c.methods }

def annotateParam (v : KeyView) (columns : List Nat) (method : String) (desc : Option String)
    (index : UInt16) (r : Record) (c : ClassMapping) : Checked ε ClassMapping := do
  let new : Option MethodMapping :=
    if v.creates then some { names := .ofSource method, desc } else none
  return { c with
    methods := ←
      changeFirst (·.isFor v.column method desc) new (takeParamOf columns index r) c.methods }

/-- Change the class that is stored under a name. -/
def changeClass (name : String) (change : ClassMapping → Checked ε ClassMapping)
    (classes : OrderedMap String ClassMapping) : Checked ε (OrderedMap String ClassMapping) := do
  match classes.get? name with
  | none => return classes
  | some c =>
      let changed ← change c
      return classes.modify name fun _ => changed

/-- Change the class of a source name, which is added if the source may do so. -/
def changeOwner (v : KeyView) (owner : String) (change : ClassMapping → Checked ε ClassMapping)
    (classes : OrderedMap String ClassMapping) : Checked ε (OrderedMap String ClassMapping) := do
  match v.class? owner with
  | none => return classes
  | some name =>
      changeClass name change
        (if v.creates then classes.insertNew name (.ofSource name) else classes)

/-- Take over what a record says. -/
def apply (v : KeyView) (columns : List Nat) (classes : OrderedMap String ClassMapping)
    (r : Record) : Checked ε (OrderedMap String ClassMapping) :=
  match r.element with
  | .type =>
      match r.key?.bind v.class? with
      | none => return classes
      | some name => changeClass name (annotate columns r) (classes.insertNew name (.ofSource name))
  | .field owner desc =>
      changeOwner v owner (annotateField v columns (desc.map v.sourceDesc) r) classes
  | .method owner desc =>
      changeOwner v owner (annotateMethod v columns (desc.map v.sourceDesc) r) classes
  | .param owner method desc index =>
      changeOwner v owner (annotateParam v columns method (desc.map v.sourceDesc) index r) classes

/-- The column of each namespace in order, and the namespaces with those that were missing. -/
def claimColumns (known : List String) : List String → Checked ε (List String × List Nat)
  | [] => return (known, [])
  | name :: names => do
      match known.idxOf? name with
      | some column =>
          let (all, columns) ← claimColumns known names
          return (all, column :: columns)
      | none =>
          let pushed := known ++ [name]
          let column ← sub pushed.length 1
          let (all, columns) ← claimColumns pushed names
          return (all, column :: columns)

/-- Merge into a tree. -/
def merge (t : MappingTree) (s : Sheet) : Checked ForeignSource MappingTree := do
  let key ← at_ s.namespaces 0
  let known := if t.namespaces.isEmpty then [key] else t.namespaces
  match known.idxOf? key with
  | none => fail ⟨key, ← at_ known 0⟩
  | some column => do
      let (namespaces, columns) ← claimColumns known s.namespaces
      let classes ← s.records.foldlM (apply (t.keyView column) columns) t.classes
      return { t with namespaces, classes }

end Sheet

end JarRemap
