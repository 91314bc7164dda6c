import JarRemap.Signature
import JarRemap.Tree

/-!
# Dictionaries

A dictionary leads from one namespace of a tree to another: everything is looked up by its name in
the one and has a name in the other. An element without a name in the first namespace goes by its
source name, one without a name in the second keeps the name it is looked up by.
-/

namespace JarRemap

/-- A member by its owner, its name and its descriptor, if the tree has one for it. -/
structure MemberKey where
  owner : String
  name : String
  desc : Option String
deriving DecidableEq, Repr

/-- The names of a tree in two of its namespaces. -/
structure Dictionary where
  source : Namespace
  target : Namespace
  classes : OrderedMap String String := {}
  fields : OrderedMap MemberKey String := {}
  methods : OrderedMap MemberKey String := {}
  /-- The fields by owner and name alone; no name if two of them get different ones. -/
  fieldsByName : OrderedMap (String × String) (Option String) := {}
  /-- The methods by owner and name alone; no name if two of them get different ones. -/
  methodsByName : OrderedMap (String × String) (Option String) := {}

namespace Dictionary

/-- A member of a class, seen between two namespaces. -/
structure MemberNames where
  key : MemberKey
  renamed : String
deriving DecidableEq, Repr

/-- The columns of a dictionary, and the classes of its tree by their source names. -/
structure View where
  first : Nat
  second : Nat
  classes : OrderedMap String String

namespace View

def nameOf (v : View) (names : Names) : String := (names.get? v.first).getD names.source

def renamedOf (v : View) (names : Names) : String := (names.get? v.second).getD (v.nameOf names)

/-- A descriptor of the source namespace in the first namespace. -/
def descOf (v : View) (desc : String) : String := Descriptor.rename v.classes.get? desc

/-- A field or method of a class. -/
def memberOf (v : View) (owner : String) (names : Names) (desc : Option String) : MemberNames :=
  ⟨⟨owner, v.nameOf names, desc.map v.descOf⟩, v.renamedOf names⟩

def fieldsOf (v : View) (c : ClassMapping) : List MemberNames :=
  c.fields.map fun f => v.memberOf (v.nameOf c.names) f.names f.desc

def methodsOf (v : View) (c : ClassMapping) : List MemberNames :=
  c.methods.map fun m => v.memberOf (v.nameOf c.names) m.names m.desc

end View

/-- The names by key; of two members with one key the first counts. -/
def byKey (members : List MemberNames) : OrderedMap MemberKey String :=
  members.foldl (fun table m => table.insertNew m.key m.renamed) {}

def addByName (table : OrderedMap (String × String) (Option String)) (m : MemberNames) :
    OrderedMap (String × String) (Option String) :=
  (table.insertNew (m.key.owner, m.key.name) (some m.renamed)).modify (m.key.owner, m.key.name)
    fun known => if known = some m.renamed then known else none

def byName (members : List MemberNames) : OrderedMap (String × String) (Option String) :=
  members.foldl addByName {}

/-- The dictionary of a tree between two columns. -/
def ofColumns (t : MappingTree) (source target : Namespace) (first second : Nat) : Dictionary :=
  let classes := t.classes.values
  let inSource : View := ⟨first, second, {}⟩
  let v : View :=
    { inSource with
      classes := .ofList (classes.map fun c => (c.names.source, inSource.nameOf c.names)) }
  let fields := classes.flatMap v.fieldsOf
  let methods := classes.flatMap v.methodsOf
  { source, target
    classes := .ofList (classes.map fun c => (v.nameOf c.names, v.renamedOf c.names))
    fields := byKey fields
    methods := byKey methods
    fieldsByName := byName fields
    methodsByName := byName methods }

/-- The dictionary of a tree between two of its namespaces. -/
def ofTree (t : MappingTree) (source target : String) : Except UnknownNamespace Dictionary := do
  let source ← t.namespace? source
  let target ← t.namespace? target
  return ofColumns t source target ((t.column? source.name).getD 0) ((t.column? target.name).getD 0)

def newClass? (d : Dictionary) : ClassMap := d.classes.get?

/-- A descriptor in the target namespace. -/
def newDescriptor (d : Dictionary) (desc : String) : String := Descriptor.rename d.newClass? desc

/-- A signature in the target namespace; `none` if it is malformed. -/
def newSignature? (d : Dictionary) (signature : String) : Option String :=
  Signature.rename? d.newClass? signature

/-- The new name of a field that a class declares. With a descriptor, the field must have it or
none; without one, the name must be enough. -/
def newField? (d : Dictionary) (owner name : String) (desc : Option String) : Option String :=
  match desc with
  | some desc => d.fields.get? ⟨owner, name, some desc⟩ <|> d.fields.get? ⟨owner, name, none⟩
  | none => (d.fieldsByName.get? (owner, name)).join

/-- The new name of a method that a class declares with exactly this descriptor. -/
def newExactMethod? (d : Dictionary) (owner name desc : String) : Option String :=
  d.methods.get? ⟨owner, name, some desc⟩

/-- The new name of a method that a class declares with this descriptor or none. -/
def newMethod? (d : Dictionary) (owner name desc : String) : Option String :=
  d.newExactMethod? owner name desc <|> d.methods.get? ⟨owner, name, none⟩

/-- The new name of a method by its name alone, if all methods of that name agree. -/
def newMethodNamed? (d : Dictionary) (owner name : String) : Option String :=
  (d.methodsByName.get? (owner, name)).join

end Dictionary

end JarRemap
