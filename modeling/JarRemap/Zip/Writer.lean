import JarRemap.Archive
import JarRemap.Text.Utf8
import JarRemap.Zip.Layout

/-!
# Writing archives

An archive is written with its entries as they are, without compression, then the list of them, then
the record that tells where the list is. All names are marked as UTF-8, and no times are kept.
-/

namespace JarRemap.Zip

/-- A number with how many bytes it is written in. -/
structure Slot where
  size : Nat
  value : Nat

/-- The bytes of numbers in a row. -/
def slotBytes (slots : List Slot) : List UInt8 := slots.flatMap fun s => littleEndian s.size s.value

/-- The first day that an archive can tell. -/
def earliestDate : Nat := 0x21

/-- What is said of an entry both before its bytes and in the list: version, flags, no compression,
time, date, checksum, and twice its length. -/
def commonSlots (e : Entry) : List Slot :=
  [⟨2, 20⟩, ⟨2, utf8Flag⟩, ⟨2, 0⟩, ⟨2, 0⟩, ⟨2, earliestDate⟩, ⟨4, (checksum e.bytes).toNat⟩,
    ⟨4, e.bytes.length⟩, ⟨4, e.bytes.length⟩]

def nameBytes (e : Entry) : List UInt8 := Text.encode e.name.toList

/-- An entry with what stands before its bytes. -/
def entryBytes (e : Entry) : List UInt8 :=
  slotBytes (⟨4, entryMark⟩ :: commonSlots e ++ [⟨2, (nameBytes e).length⟩, ⟨2, 0⟩]) ++
    nameBytes e ++ e.bytes

/-- An entry of the list, given where its bytes begin. -/
def listedBytes (e : Entry) (offset : Nat) : List UInt8 :=
  slotBytes (⟨4, listedMark⟩ :: ⟨2, 20⟩ :: commonSlots e ++
    [⟨2, (nameBytes e).length⟩, ⟨2, 0⟩, ⟨2, 0⟩, ⟨2, 0⟩, ⟨2, 0⟩, ⟨4, 0⟩, ⟨4, offset⟩]) ++
    nameBytes e

/-- The list of entries, the first of which begins at an offset. -/
def listBytes : Nat → List Entry → List UInt8
  | _, [] => []
  | offset, e :: rest => listedBytes e offset ++ listBytes (offset + (entryBytes e).length) rest

/-- The bytes of an archive. -/
def write (entries : List Entry) : List UInt8 :=
  let body := entries.flatMap entryBytes
  let list := listBytes 0 entries
  body ++ list ++
    slotBytes [⟨4, lastMark⟩, ⟨2, 0⟩, ⟨2, 0⟩, ⟨2, entries.length⟩, ⟨2, entries.length⟩,
      ⟨4, list.length⟩, ⟨4, body.length⟩, ⟨2, 0⟩]

/-- The bytes of a file. -/
def contentBytes : Content → List UInt8
  | .bytes bytes => bytes
  | .archive entries => write entries

end JarRemap.Zip
