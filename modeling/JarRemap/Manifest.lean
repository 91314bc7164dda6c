import JarRemap.OrderedMap
import JarRemap.Text.Cut
import JarRemap.Text.Lines
import JarRemap.Text.Utf8

/-!
# Manifests

Attributes of an archive as a whole, and of single entries of it. An attribute is a line with a key
and a value, and goes on in lines that begin with a space; no line is longer than 72 bytes. Sections
are parted by empty lines, and all but the first begin with a name.
-/

namespace JarRemap

/-- Attributes in the order in which they came. -/
abbrev Attributes := OrderedMap String String

/-- A manifest. -/
structure Manifest where
  main : Attributes := {}
  sections : OrderedMap String Attributes := {}

namespace Manifest

/-- Whether there are neither attributes nor sections. -/
def isEmpty (m : Manifest) : Bool := m.main.isEmpty && m.sections.isEmpty

/-- A section that is being read. -/
structure Reader where
  manifest : Manifest := {}
  /-- Whether the first section is over. -/
  mainDone : Bool := false
  /-- The name of the section. -/
  name : Option String := none
  /-- The attributes of the section, the last one first, their values as texts. -/
  attributes : List (String × List Char) := []

namespace Reader

/-- Take the attributes of the section into the manifest. -/
def flush (r : Reader) : Manifest :=
  let attributes := r.attributes.reverse.map fun (key, value) => (key, String.ofList value)
  match r.name with
  | none => { r.manifest with main := r.manifest.main.insertAll attributes }
  | some name =>
      { r.manifest with
        sections := (r.manifest.sections.insertNew name {}).modify name (·.insertAll attributes) }

/-- Read a line. A line that is neither empty, nor goes on, nor has a key is passed over. -/
def line (r : Reader) (line : List Char) : Reader :=
  match line with
  | [] => { manifest := r.flush, mainDone := true }
  | ' ' :: continued =>
      match r.attributes with
      | [] => r
      | (key, value) :: before => { r with attributes := (key, value ++ continued) :: before }
  | _ =>
      match Text.cutAt? [':', ' '] line with
      | none => r
      | some (key, value) =>
          if key = "Name".toList ∧ r.mainDone ∧ r.name = none ∧ r.attributes = [] then
            { r with name := some (String.ofList value) }
          else { r with attributes := (String.ofList key, value) :: r.attributes }

end Reader

def parse (text : List Char) : Manifest := ((Text.lines text).foldl Reader.line {}).flush

/-- Take over another manifest, whose values win. -/
def merge (m other : Manifest) : Manifest where
  main := m.main.insertAll other.main.entries
  sections := other.sections.entries.foldl
    (fun sections (name, attributes) =>
      (sections.insertNew name {}).modify name (·.insertAll attributes.entries))
    m.sections

/-- How many bytes a line may have. -/
def lineLimit : Nat := 72

/-- Write a line, and go on in a new line that begins with a space wherever the next character does
not fit; `room` is how many bytes still fit. -/
def fold (room : Nat) : List Char → List Char
  | [] => ['\r', '\n']
  | c :: rest =>
      let size := Text.encodedSize c
      if size ≤ room then c :: fold (room - size) rest
      else '\r' :: '\n' :: ' ' :: c :: fold (lineLimit - 1 - size) rest

/-- Write an attribute. -/
def printAttribute (key value : String) : List Char :=
  fold lineLimit (key.toList ++ ':' :: ' ' :: value.toList)

/-- Write attributes. -/
def printAttributes (attributes : List (String × String)) : List Char :=
  attributes.flatMap fun (key, value) => printAttribute key value

/-- The key of the attribute that comes first. -/
def versionKey : String := "Manifest-Version"

/-- Write a manifest. The version comes first, and is written even if it is missing. -/
def print (m : Manifest) : List Char :=
  printAttribute versionKey ((m.main.get? versionKey).getD "1.0") ++
    printAttributes (m.main.entries.filter fun e => e.1 ≠ versionKey) ++ ['\r', '\n'] ++
    m.sections.entries.flatMap fun (name, attributes) =>
      printAttribute "Name" name ++ printAttributes attributes.entries ++ ['\r', '\n']

def toBytes (m : Manifest) : List UInt8 := Text.encode m.print

/-- Whether two tables have the same values, in whatever order. -/
def sameEntries {α : Type} (same : α → α → Bool) (a b : OrderedMap String α) : Bool :=
  a.size == b.size && a.entries.all fun (key, value) => ((b.get? key).map (same value)).getD false

/-- Whether two manifests have the same attributes and sections, in whatever order. -/
def same (m other : Manifest) : Bool :=
  sameEntries (· == ·) m.main other.main &&
    sameEntries (sameEntries (· == ·)) m.sections other.sections

end Manifest

end JarRemap
