/-!
# The form of archives

The checksum of an entry, and the parts that an archive is made of.
-/

/-!
## Checksums

Archives keep a checksum of each entry: the remainder of its bits, read as a polynomial, by a fixed
polynomial of degree 32. Bits are taken lowest first.
-/

namespace JarRemap.Zip

/-- The polynomial by which bits are divided, without its highest coefficient. -/
def checksumDivisor : UInt32 := 0xEDB88320

/-- The remainder after one more step. -/
def checksumStep (r : UInt32) : UInt32 :=
  if r &&& 1 = 1 then (r >>> 1) ^^^ checksumDivisor else r >>> 1

/-- The remainder after a number of steps. -/
def checksumSteps : Nat → UInt32 → UInt32
  | 0, r => r
  | n + 1, r => checksumSteps n (checksumStep r)

/-- The remainder after one more byte. -/
def checksumByte (r : UInt32) (b : UInt8) : UInt32 := checksumSteps 8 (r ^^^ b.toUInt32)

def checksum (bytes : List UInt8) : UInt32 := ~~~(bytes.foldl checksumByte 0xFFFFFFFF)

@[simp] theorem checksum_nil : checksum [] = 0 := rfl

end JarRemap.Zip

/-!
## The layout of archives

An archive is its entries, each behind a header, then a list of them, then a record that tells
where the list is. Each part begins with a mark of four bytes, and its numbers have their lowest
byte first.
-/

namespace JarRemap.Zip

def entryMark : Nat := 0x04034b50

/-- The mark before an entry of the list. -/
def listedMark : Nat := 0x02014b50

/-- The mark of the record at the end. -/
def lastMark : Nat := 0x06054b50

/-- How many bytes stand before the name of an entry. -/
def entryLength : Nat := 30

/-- How many bytes stand before the name of a listed entry. -/
def listedLength : Nat := 46

/-- How many bytes the record at the end has without its comment. -/
def lastLength : Nat := 22

/-- The flag of a name in UTF-8. -/
def utf8Flag : Nat := 0x800

/-- The lowest bytes of a number, the lowest first. -/
def littleEndian : Nat → Nat → List UInt8
  | 0, _ => []
  | count + 1, n => n.toUInt8 :: littleEndian count (n / 256)

@[simp] theorem length_littleEndian (count n : Nat) : (littleEndian count n).length = count := by
  induction count generalizing n with
  | zero => rfl
  | succ count ih => simp [littleEndian, ih]

end JarRemap.Zip
