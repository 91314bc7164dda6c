import JarRemap.Format.Detect

/-!
# Archives

What a file holds: plain bytes, or an archive as the list of its entries in order. Mapping sources
may be bundled in an archive, whose entries are then read in the order of their formats and names,
whatever order they have in the archive.
-/

namespace JarRemap

/-- An entry of an archive. -/
structure Entry where
  name : String
  bytes : List UInt8
deriving DecidableEq, Repr

def Entry.isDirectory (e : Entry) : Bool :=
  match e.name.toList.getLast? with
  | some c => c = '/' || c = '\\'
  | none => false

/-- What a file holds. -/
inductive Content where
  | bytes (bytes : List UInt8)
  | archive (entries : List Entry)
deriving DecidableEq, Repr

/-- The mark an archive with entries begins with. -/
def archiveMark : List UInt8 := [0x50, 0x4B, 0x03, 0x04]

/-- The mark of the record an archive ends with. -/
def endMark : List UInt8 := [0x50, 0x4B, 0x05, 0x06]

/-- An archive without entries: its end record alone. -/
def emptyArchive : List UInt8 := endMark ++ List.replicate 18 0

namespace Content

/-- The bytes of a file, as far as they are known: an archive with entries shows its mark. -/
def toBytes : Content → List UInt8
  | bytes b => b
  | archive [] => emptyArchive
  | archive _ => archiveMark

/-- Whether a file begins like an archive. -/
def isArchive (c : Content) : Bool :=
  archiveMark.isPrefixOf c.toBytes || endMark.isPrefixOf c.toBytes

/-- The entries of an archive, or `none` if the file is none. -/
def entries? : Content → Option (List Entry)
  | archive entries => some entries
  | bytes b => if b = emptyArchive then some [] else none

def text (c : Content) : List Char := fileText c.toBytes

end Content

/-- The parts of a path between its slashes, after which `depth` directories are open. -/
def staysInside (depth : Nat) : List (List Char) → Bool
  | [] => true
  | part :: rest =>
      if part = [] ∨ part = ['.'] then staysInside depth rest
      else if part = ['.', '.'] then depth ≠ 0 && staysInside (depth - 1) rest
      else staysInside (depth + 1) rest

/-- Whether the name of an entry stays inside the directory it is unpacked into: it has no null
character, does not start at the root, and never climbs above where it starts. -/
def Entry.isSafe (e : Entry) : Bool :=
  let name := e.name.toList
  !name.contains '\x00' && name.head? ≠ some '/' && staysInside 0 (Text.splitOn '/' name)

/-- A mapping source with its format. -/
structure MappingText where
  name : String
  format : Format
  text : List Char
deriving DecidableEq, Repr

namespace MappingText

/-- Whether a source may be read before another one: by format, then by name. -/
def le (a b : MappingText) : Bool :=
  a.format.position < b.format.position ||
    (a.format.position == b.format.position && (a.name < b.name || a.name == b.name))

/-- The source in an entry, if its format can be told. -/
def ofEntry? (e : Entry) : Option MappingText :=
  let text := fileText e.bytes
  (Format.detect text).map fun format => ⟨e.name, format, text⟩

end MappingText

/-- Why no sources can be read from an archive. -/
inductive ArchiveError where
  /-- It cannot be read as an archive. -/
  | unreadable
  /-- An entry has an unsafe name. -/
  | unsafeName (name : String)
deriving DecidableEq, Repr

/-- The mapping sources in an archive, in the order in which they are read. Directories and entries
whose format cannot be told are left out. -/
def Content.mappings (c : Content) : Except ArchiveError (List MappingText) :=
  match c.entries? with
  | none => .error .unreadable
  | some entries =>
      let files := entries.filter fun e => !e.isDirectory
      match files.find? fun e => !e.isSafe with
      | some e => .error (.unsafeName e.name)
      | none => .ok ((files.filterMap MappingText.ofEntry?).mergeSort MappingText.le)

end JarRemap
