import JarRemap.Archive
import JarRemap.Zip.Layout
import JarRemap.Zip.Inflate

/-!
# Reading archives

An archive is read from its end, where a record tells how many entries there are and where their
list begins. Every entry must be complete and have the checksum that the list gives. Archives in
several parts, with encrypted entries or in the layout for very large files are not read.
-/

namespace JarRemap.Zip

/-- The number in so many bytes at an offset, the lowest byte first. -/
def number? (bytes : ByteArray) (offset : Nat) : Nat → Option Nat
  | 0 => some 0
  | n + 1 => do return (← bytes[offset]?).toNat + 256 * (← number? bytes (offset + 1) n)

def slice? (bytes : ByteArray) (offset length : Nat) : Option (List UInt8) :=
  if offset + length ≤ bytes.size then some (bytes.extract offset (offset + length)).toList
  else none

/-- The last offset up to a given one at which the end record stands. The first number bounds how
many offsets are tried. -/
def endOffset? (bytes : ByteArray) : Nat → Nat → Option Nat
  | 0, _ => none
  | n + 1, offset =>
      if number? bytes offset 4 = some lastMark then some offset
      else if offset = 0 then none
      else endOffset? bytes n (offset - 1)

/-- What the end record says. -/
structure Directory where
  count : Nat
  /-- Where the list of entries begins. -/
  offset : Nat
  /-- What all offsets in the archive are to be moved by. -/
  shift : Nat
deriving Repr

/-- Find the list of entries, which ends where the end record begins. -/
def directory? (bytes : ByteArray) : Option Directory := do
  if bytes.size < lastLength then none
  else
    let here ← endOffset? bytes 0x10000 (bytes.size - lastLength)
    let count ← number? bytes (here + 10) 2
    let length ← number? bytes (here + 12) 4
    let offset ← number? bytes (here + 16) 4
    if (← number? bytes (here + 4) 2) ≠ (← number? bytes (here + 6) 2) then none
    else if here < offset + length then none
    else some ⟨count, here - length, here - length - offset⟩

/-- The characters of the upper half of the code that names without a mark are written in. -/
def upperCharacters : List Char :=
  ("ÇüéâäàåçêëèïîìÄÅÉæÆôöòûùÿÖÜ¢£¥₧ƒáíóúñÑªº¿⌐¬½¼¡«»░▒▓│┤╡╢╖╕╣║╗╝╜╛┐└┴┬├─┼╞╟╚╔╩╦╠═╬╧╨╤╥╙╘╒╓╫╪┘┌" ++
    "█▄▌▐▀αßΓπΣσµτΦΘΩδ∞φε∩≡±≥≤⌠⌡÷≈°∙·√ⁿ²■\u00a0").toList

/-- The character of a byte in that code. -/
def character (b : UInt8) : Char :=
  if b < 0x80 then Char.ofNat b.toNat else upperCharacters.getD (b.toNat - 0x80) '?'

/-- The name of an entry, in UTF-8 if it is marked so. -/
def entryName (flags : Nat) (name : List UInt8) : String :=
  String.ofList (if flags / utf8Flag % 2 = 1 then Text.decodeLossy name else name.map character)

/-- The bytes of an entry, by the way they are written. -/
def contents? (method : Nat) (written : List UInt8) : Option (List UInt8) :=
  match method with
  | 0 => some written
  | 8 => inflate? written
  | _ => none

/-- Read a listed entry, and find the next one. -/
def entry? (bytes : ByteArray) (shift here : Nat) : Option (Entry × Nat) := do
  if (← number? bytes here 4) ≠ listedMark then none
  else
    let flags ← number? bytes (here + 8) 2
    let method ← number? bytes (here + 10) 2
    let sum ← number? bytes (here + 16) 4
    let length ← number? bytes (here + 20) 4
    let nameLength ← number? bytes (here + 28) 2
    let extraLength ← number? bytes (here + 30) 2
    let commentLength ← number? bytes (here + 32) 2
    let start := (← number? bytes (here + 42) 4) + shift
    let name ← slice? bytes (here + listedLength) nameLength
    if flags % 2 = 1 ∨ (← number? bytes start 4) ≠ entryMark then none
    else
      let skipped := (← number? bytes (start + 26) 2) + (← number? bytes (start + 28) 2)
      let written ← slice? bytes (start + entryLength + skipped) length
      let contents ← contents? method written
      if (checksum contents).toNat ≠ sum then none
      else
        some (⟨entryName flags name, contents⟩,
          here + listedLength + nameLength + extraLength + commentLength)

/-- Read so many listed entries. -/
def entries? (bytes : ByteArray) (shift : Nat) : Nat → Nat → Option (List Entry)
  | 0, _ => some []
  | n + 1, here => do
      let (e, next) ← entry? bytes shift here
      return e :: (← entries? bytes shift n next)

/-- The entries of an archive, or `none` if these bytes are none. -/
def read? (bytes : ByteArray) : Option (List Entry) := do
  let d ← directory? bytes
  entries? bytes d.shift d.count d.offset

/-- What a file with these bytes holds. -/
def content (bytes : ByteArray) : Content :=
  match read? bytes with
  | some entries => .archive entries
  | none => .bytes bytes.toList

end JarRemap.Zip
