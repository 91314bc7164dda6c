import JarRemap.Json.Value
import JarRemap.Json.Reader
import JarRemap.Resolver

/-!
# Reference maps

Mixin configurations name JSON files with references to symbols. These files are collected while an
artifact is read, and written under new names when it is complete. Only the references are changed,
which stand in objects at fixed depths.
-/

namespace JarRemap

/-- How references are handled. -/
structure RefmapOptions where
  /-- Whether reference maps are renamed at all. -/
  enabled : Bool := false
  /-- Whether a reference without a descriptor may also name a method. -/
  wildcards : Bool := false
deriving DecidableEq, Repr

/-- The reference maps of an artifact. -/
structure Refmaps where
  options : RefmapOptions
  /-- The files that configurations name, in order. -/
  named : List String := []
  /-- The JSON files. -/
  files : OrderedMap String (List UInt8) := {}

/-- A file that is not the JSON it should be. -/
structure InvalidJson where
  file : String
deriving DecidableEq, Repr

namespace Refmaps

/-- Whether a file is a configuration. -/
def isConfig (name : String) : Bool :=
  let base := Text.behindLast (· = '/') name.toList
  ".mixins.json".toList.isSuffixOf base ||
    ("mixins.".toList.isPrefixOf base && ".json".toList.isSuffixOf base)

/-- The reference map that a configuration names; `none` also if it cannot be read. -/
def namedBy? (bytes : List UInt8) : Option String := do
  let d ← Json.Document.ofBytes? bytes
  match ← d.fields? [⟨"refmap", true⟩] false with
  | [name] => (Json.Document.readField? (·.optional? Json.Document.text?) none name).join
  | _ => none

/-- Look at a file of the artifact. -/
def read (r : Refmaps) (name : String) (bytes : List UInt8) : Refmaps :=
  if r.options.enabled && ".json".toList.isSuffixOf name.toList then
    { r with
      named := addAllNew r.named (if isConfig name then (namedBy? bytes).toList else [])
      files := r.files.insert name bytes }
  else r

/-- Whether a file is a reference map. -/
def isRefmap (r : Refmaps) (name : String) : Bool := r.named.contains name && r.files.contains name

/-- The new form of the part of a reference behind its owner: nothing, a method with its descriptor,
a field with its descriptor, or a name alone, which may end in an asterisk. -/
def renameMember (r : Refmaps) (names : Resolver) (owner : String) (member : List Char) :
    List Char :=
  if member.isEmpty then []
  else if member.contains '(' then
    let name := String.ofList (member.takeWhile (· ≠ '('))
    let desc := String.ofList (member.dropWhile (· ≠ '('))
    ((names.newMethod? owner name desc).getD name).toList ++ (names.newDescriptor desc).toList
  else
    match Text.cut? ':' member with
    | some (name, desc) =>
        let name := String.ofList name
        let desc := String.ofList desc
        ((names.newField? owner name (some desc)).getD name).toList ++
          ':' :: (names.newDescriptor desc).toList
    | none =>
        let (name, asterisk) := match Text.stripEnd? ['*'] member with
          | some name => (name, ['*'])
          | none => (member, [])
        let name := String.ofList name
        let renamed := names.newField? owner name none <|>
          if r.options.wildcards then names.newMethodNamed? owner name else none
        (renamed.getD name).toList ++ asterisk

/-- The new form of a reference: a member behind the descriptor of its owner, or a class. -/
def renameReference (r : Refmaps) (names : Resolver) (reference : String) : String :=
  match reference.toList with
  | 'L' :: rest =>
      match Text.cut? ';' rest with
      | some (owner, member) =>
          let owner := String.ofList owner
          String.ofList ('L' :: ((names.newClass? owner).getD owner).toList ++
            ';' :: r.renameMember names owner member)
      | none => (names.newClass? reference).getD reference
  | _ => (names.newClass? reference).getD reference

/-- Change every member of an object. -/
def changeMembers (f : Json → Json) : Json → Json
  | .object members => .object (members.map fun (name, j) => (name, f j))
  | j => j

def changeMember (name : String) (f : Json → Json) : Json → Json
  | .object members =>
      .object (members.map fun (other, j) => if other = name then (other, f j) else (other, j))
  | j => j

def renameString (r : Refmaps) (names : Resolver) : Json → Json
  | .string s => .string (r.renameReference names s)
  | j => j

/-- Rename the references of a table: mixins with their references. -/
def renameTable (r : Refmaps) (names : Resolver) : Json → Json :=
  changeMembers (changeMembers (r.renameString names))

/-- Rename the references of a reference map: one table for all, and one for each environment. -/
def renameRefmap (r : Refmaps) (names : Resolver) (j : Json) : Json :=
  changeMember "data" (changeMembers (r.renameTable names))
    (changeMember "mappings" (r.renameTable names) j)

/-- Rename the reference maps with the given names. Names without a file are passed over. -/
def renameNamed (r : Refmaps) (names : Resolver) :
    List String → Except InvalidJson (List (String × List UInt8))
  | [] => .ok []
  | name :: rest =>
      match r.files.get? name with
      | none => renameNamed r names rest
      | some bytes =>
          match Json.ofBytes? bytes with
          | none => .error ⟨name⟩
          | some j => (renameNamed r names rest).map ((name, (r.renameRefmap names j).toBytes) :: ·)

/-- All reference maps under new names, in the order in which configurations named them. -/
def renamed (r : Refmaps) (names : Resolver) : Except InvalidJson (List (String × List UInt8)) :=
  r.renameNamed names r.named

end Refmaps

end JarRemap
