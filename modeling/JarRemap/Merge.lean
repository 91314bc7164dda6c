import JarRemap.Descriptor
import JarRemap.Tree

/-!
# Merging a source into the tree

A source is keyed by some namespace of the tree. If that is the source namespace, its records may
add classes and members; else they only annotate what is there, and a record without its element is
skipped. A tree without namespaces takes the key of the first source as its source namespace.
-/

namespace JarRemap

/-- A source whose key the tree does not know. -/
structure ForeignSource where
  key : String
  existing : String
deriving DecidableEq, Repr

/-- How a source speaks of the elements of a tree. -/
structure KeyView where
  /-- The column of the key names. -/
  column : Nat
  /-- The source names of the classes by their key names. -/
  classes : OrderedMap String String

namespace KeyView

/-- Whether the source may add classes and members. -/
def creates (v : KeyView) : Bool := v.column == 0

/-- The source name of a class. -/
def class? (v : KeyView) (key : String) : Option String :=
  if v.creates then some key else v.classes.get? key

def sourceDesc (v : KeyView) (desc : String) : String :=
  if v.creates then desc else Descriptor.rename v.classes.get? desc

end KeyView

/-- Write the names of a record into columns, from a position on. Missing names change nothing. -/
def Names.write (names : Names) (columns : List Nat) (r : Record) (start : Nat) : Names :=
  ((columns.zip r.names).drop start).foldl
    (fun names (column, name) => match name with
      | some name => names.set column name
      | none => names)
    names

def Record.commentOver (r : Record) (before : Option String) : Option String := r.comment <|> before

namespace ParamMapping

/-- Take over what a record says; parameters are found by index, so the key is a name as well. -/
def annotate (columns : List Nat) (r : Record) (p : ParamMapping) : ParamMapping :=
  { p with names := p.names.write columns r 0, comment := r.commentOver p.comment }

end ParamMapping

namespace FieldMapping

/-- Take over what a record says. -/
def annotate (columns : List Nat) (desc : Option String) (r : Record) (f : FieldMapping) :
    FieldMapping where
  names := f.names.write columns r 1
  desc := f.desc <|> desc
  comment := r.commentOver f.comment

/-- Whether a record of the key and descriptor speaks of this field. -/
def isFor (f : FieldMapping) (column : Nat) (key : String) (desc : Option String) : Bool :=
  f.names.get? column == some key && descriptorsFit f.desc desc

end FieldMapping

namespace MethodMapping

/-- Take over what a record says. -/
def annotate (columns : List Nat) (desc : Option String) (r : Record) (m : MethodMapping) :
    MethodMapping :=
  { m with
    names := m.names.write columns r 1
    desc := m.desc <|> desc
    comment := r.commentOver m.comment }

/-- Whether a record of the key and descriptor speaks of this method. -/
def isFor (m : MethodMapping) (column : Nat) (key : String) (desc : Option String) : Bool :=
  m.names.get? column == some key && descriptorsFit m.desc desc

/-- Take over what a record says of the parameter at an index. -/
def annotateParam (columns : List Nat) (index : UInt16) (r : Record) (m : MethodMapping) :
    MethodMapping :=
  { m with
    params := match m.params.findIdx? fun p => p.index = index with
      | some i => m.params.modify i (·.annotate columns r)
      | none => m.params ++ [ParamMapping.annotate columns r { index }] }

end MethodMapping

namespace ClassMapping

/-- Take over what a record says of the class. -/
def annotate (columns : List Nat) (r : Record) (c : ClassMapping) : ClassMapping :=
  { c with names := c.names.write columns r 1, comment := r.commentOver c.comment }

/-- Take over what a record says of a field. -/
def annotateField (v : KeyView) (columns : List Nat) (desc : Option String) (r : Record)
    (c : ClassMapping) : ClassMapping :=
  match r.key? with
  | none => c
  | some key =>
      match c.fields.findIdx? (·.isFor v.column key desc) with
      | some i => { c with fields := c.fields.modify i (·.annotate columns desc r) }
      | none =>
          if v.creates then
            let new : FieldMapping := { names := .ofSource key }
            { c with fields := c.fields ++ [new.annotate columns desc r] }
          else c

/-- Take over what a record says of a method. -/
def annotateMethod (v : KeyView) (columns : List Nat) (desc : Option String) (r : Record)
    (c : ClassMapping) : ClassMapping :=
  match r.key? with
  | none => c
  | some key =>
      match c.methods.findIdx? (·.isFor v.column key desc) with
      | some i => { c with methods := c.methods.modify i (·.annotate columns desc r) }
      | none =>
          if v.creates then
            let new : MethodMapping := { names := .ofSource key }
            { c with methods := c.methods ++ [new.annotate columns desc r] }
          else c

/-- Take over what a record says of a parameter, of a method given by its key. -/
def annotateParam (v : KeyView) (columns : List Nat) (method : String) (desc : Option String)
    (index : UInt16) (r : Record) (c : ClassMapping) : ClassMapping :=
  match c.methods.findIdx? (·.isFor v.column method desc) with
  | some i => { c with methods := c.methods.modify i (·.annotateParam columns index r) }
  | none =>
      if v.creates then
        let new : MethodMapping := { names := .ofSource method, desc }
        { c with methods := c.methods ++ [new.annotateParam columns index r] }
      else c

end ClassMapping

namespace MappingTree

/-- Change the class of a source name, which is added if the source may do so. -/
def changeOwner (v : KeyView) (owner : String) (change : ClassMapping → ClassMapping)
    (classes : OrderedMap String ClassMapping) : OrderedMap String ClassMapping :=
  match v.class? owner with
  | none => classes
  | some name =>
      let classes := if v.creates then classes.insertNew name (.ofSource name) else classes
      classes.modify name change

/-- Take over what a record says. -/
def apply (v : KeyView) (columns : List Nat) (classes : OrderedMap String ClassMapping)
    (r : Record) : OrderedMap String ClassMapping :=
  match r.element with
  | .type =>
      match r.key?.bind v.class? with
      | none => classes
      | some name => (classes.insertNew name (.ofSource name)).modify name (·.annotate columns r)
  | .field owner desc =>
      changeOwner v owner (·.annotateField v columns (desc.map v.sourceDesc) r) classes
  | .method owner desc =>
      changeOwner v owner (·.annotateMethod v columns (desc.map v.sourceDesc) r) classes
  | .param owner method desc index =>
      changeOwner v owner (·.annotateParam v columns method (desc.map v.sourceDesc) index r) classes

/-- The namespaces of a tree before a merge; a tree without any takes the key of the source. -/
def known (t : MappingTree) (s : Source) : List String :=
  if t.namespaces.isEmpty then [s.key] else t.namespaces

def namespacesWith (t : MappingTree) (s : Source) : List String :=
  addAllNew (t.known s) s.namespaces

/-- The columns of a tree that the names of a source go to. -/
def columnsOf (t : MappingTree) (s : Source) : List Nat :=
  s.namespaces.map fun name => (t.namespacesWith s).idxOf name

/-- How a source that is keyed by a column speaks of the elements of a tree. -/
def keyView (t : MappingTree) (column : Nat) : KeyView :=
  ⟨column, if column = 0 then {} else t.sourceNames column⟩

def merge (t : MappingTree) (s : Source) : Except ForeignSource MappingTree :=
  match (t.known s).idxOf? s.key with
  | none => .error ⟨s.key, (t.known s).headD ""⟩
  | some column =>
      .ok { t with
        namespaces := t.namespacesWith s
        classes := s.records.foldl (apply (t.keyView column) (t.columnsOf s)) t.classes }

end MappingTree

end JarRemap
