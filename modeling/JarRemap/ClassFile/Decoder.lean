import JarRemap.Text.Numeral

/-!
# Reading the bytes of class files

What can be wrong with them, and how values are taken off their front.
-/

/-!
## What can be wrong with a class file

Faults of the layout are found while the file is read, faults inside attributes only where their
contents are renamed. A pool can also become full.
-/

namespace JarRemap

/-- Why a class file is refused. -/
inductive ClassFault where
  | badMagic
  /-- A constant of two slots stands in the last slot, or there is not even the first slot. -/
  | wideOverflow
  | trailingBytes
  | missingThisClass
  /-- The bytes end inside a value that begins at an offset. -/
  | unexpectedEnd (offset : Nat)
  | unknownTag (tag : Nat)
  | invalidText
  | poolFull
  /-- A table ends inside a value that begins at an offset. -/
  | truncatedAttribute (offset : Nat)
  | truncatedTable
  /-- The contents of an attribute reach beyond its end. -/
  | overlongAttribute (name : String)
  | unknownElementTag (tag : Nat)
  | unknownTarget (target : Nat)
deriving DecidableEq, Repr

/-- What is wrong, in words. -/
def ClassFault.reason : ClassFault → String
  | badMagic => "Bad magic"
  | wideOverflow => "Wide constant overflows the pool"
  | trailingBytes => "Trailing bytes"
  | missingThisClass => "Missing this_class"
  | unexpectedEnd offset => "Unexpected end of class at " ++ toString offset
  | unknownTag tag => "Unknown constant tag " ++ toString tag
  | invalidText => "Invalid modified UTF-8"
  | poolFull => "Constant pool is full"
  | truncatedAttribute offset => "Truncated attribute at " ++ toString offset
  | truncatedTable => "Truncated attribute table"
  | overlongAttribute name => "Overlong " ++ name ++ " attribute"
  | unknownElementTag tag => "Unknown element value tag " ++ toString tag
  | unknownTarget target =>
      "Unknown type annotation target 0x" ++ String.ofList (Text.hex target)

/-- The error in words. -/
def ClassFault.message (f : ClassFault) : String := "Invalid class file: " ++ f.reason

end JarRemap

/-!
## Reading bytes

Numbers in class files have their highest byte first. A reader takes values off the front of the
bytes and knows the offset it has reached, which a value that is cut off is reported with.
-/

namespace JarRemap

/-- The bytes that are left, and how many were taken. -/
structure Cursor where
  rest : List UInt8
  offset : Nat := 0
deriving DecidableEq, Repr

/-- Computations that take values off the front of bytes. -/
abbrev Decoder := StateT Cursor (Except ClassFault)

/-- A number from its bytes, highest first. -/
def natOfBytes (bytes : List UInt8) : Nat := bytes.foldl (fun n b => n * 256 + b.toNat) 0

/-- The lowest bytes of a number, highest first. -/
def bytesOfNat : Nat → Nat → List UInt8
  | 0, _ => []
  | count + 1, n => (n / Nat.pow 256 count).toUInt8 :: bytesOfNat count n

namespace Cursor

/-- Take bytes off the front, if there are as many. -/
def take? (count : Nat) (c : Cursor) : Option (List UInt8 × Cursor) :=
  let taken := c.rest.take count
  if taken.length = count then some (taken, ⟨c.rest.drop count, c.offset + count⟩) else none

end Cursor

namespace Decoder

/-- Take bytes. -/
def take (count : Nat) : Decoder (List UInt8) := fun c =>
  match c.take? count with
  | some r => .ok r
  | none => .error (.unexpectedEnd c.offset)

def byte : Decoder UInt8 := do return (natOfBytes (← take 1)).toUInt8

/-- Take a number of two bytes. -/
def short : Decoder UInt16 := do return (natOfBytes (← take 2)).toUInt16

/-- Take a number of four bytes. -/
def word : Decoder UInt32 := do return (natOfBytes (← take 4)).toUInt32

/-- Take a number of eight bytes, as two of four. -/
def long : Decoder UInt64 := do
  let high ← word
  let low ← word
  return (high.toNat * UInt32.size + low.toNat).toUInt64

/-- Take a number of values. -/
def times {α : Type} : Nat → Decoder α → Decoder (List α)
  | 0, _ => pure []
  | n + 1, d => do
      let a ← d
      let more ← times n d
      return a :: more

end Decoder

end JarRemap
