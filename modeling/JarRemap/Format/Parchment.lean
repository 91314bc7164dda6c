import JarRemap.Namespace
import JarRemap.Record
import JarRemap.Json.Reader

/-!
# Documentation exports

A JSON object that documents published symbols and names their parameters, without new names for
the classes and members themselves. Comments are a text or a list of lines.
-/

namespace JarRemap.Format.Parchment

open Json (Document)

/-- A parameter of a method. -/
structure Param where
  index : UInt16
  name : Option String
  comment : Option String

/-- A field or a method. -/
structure Member where
  name : String
  desc : String
  comment : Option String
  params : List Param := []

/-- A class with its members. -/
structure Class where
  name : String
  comment : Option String
  fields : List Member
  methods : List Member

/-- A comment; an empty one is none. -/
def comment? : Document → Option (Option String)
  | .null => some none
  | .array items =>
      (items.mapM Document.text?).map fun lines =>
        nameOrNone (String.intercalate "\n" lines).toList
  | d => d.text?.map fun text => nameOrNone text.toList

def Param.read? (d : Document) : Option Param := do
  match ← d.fields? [⟨"index", false⟩, ⟨"name", false⟩, ⟨"javadoc", true⟩] false with
  | [some index, name, comment] =>
      return ⟨← index.index?, ← Document.readField? (·.optional? Document.text?) none name,
        ← Document.readField? comment? none comment⟩
  | _ => none

def Member.readField? (d : Document) : Option Member := do
  match ← d.fields? [⟨"name", false⟩, ⟨"descriptor", false⟩, ⟨"javadoc", true⟩] false with
  | [some name, some desc, comment] =>
      return ⟨← name.text?, ← desc.text?, ← Document.readField? comment? none comment, []⟩
  | _ => none

def Member.readMethod? (d : Document) : Option Member := do
  let fields : List Json.Field :=
    [⟨"name", false⟩, ⟨"descriptor", false⟩, ⟨"javadoc", true⟩, ⟨"parameters", true⟩]
  match ← d.fields? fields false with
  | [some name, some desc, comment, params] =>
      return ⟨← name.text?, ← desc.text?, ← Document.readField? comment? none comment,
        ← Document.readField? (Document.itemsWith? Param.read?) [] params⟩
  | _ => none

def Class.read? (d : Document) : Option Class := do
  let fields : List Json.Field :=
    [⟨"name", false⟩, ⟨"javadoc", true⟩, ⟨"fields", true⟩, ⟨"methods", true⟩]
  match ← d.fields? fields false with
  | [some name, comment, fields, methods] =>
      return ⟨← name.text?, ← Document.readField? comment? none comment,
        ← Document.readField? (Document.itemsWith? Member.readField?) [] fields,
        ← Document.readField? (Document.itemsWith? Member.readMethod?) [] methods⟩
  | _ => none

/-- Read the classes of an export. -/
def classes? (d : Document) : Option (List Class) := do
  match ← d.fields? [⟨"classes", true⟩] false with
  | [classes] => Document.readField? (Document.itemsWith? Class.read?) [] classes
  | _ => none

/-- The records of a method of a class. -/
def Member.records (owner : String) (m : Member) : List Record :=
  ⟨.method owner (some m.desc), [some m.name], m.comment⟩ ::
    m.params.map fun p => ⟨.param owner m.name (some m.desc) p.index, [p.name], p.comment⟩

def Class.records (c : Class) : List Record :=
  ⟨.type, [some c.name], c.comment⟩ ::
    c.fields.map (fun f => ⟨.field c.name (some f.desc), [some f.name], f.comment⟩) ++
    c.methods.flatMap (Member.records c.name)

/-- Read an export, which has a single namespace. -/
def parse? (text : List Char) : Option Source := do
  let classes ← classes? (← Document.ofText? text)
  return (Source.start Namespace.mojmap []).pushAll (classes.flatMap Class.records)

end JarRemap.Format.Parchment
