import JarRemap.Text.Utf16

/-!
# Modified UTF-8

How a class file writes text: each UTF-16 unit takes one to three bytes, and the null character
takes two, so that no byte is zero. Reading also accepts longer forms than are ever written.
-/

namespace JarRemap.ModifiedUtf8

/-- The bytes of a unit. -/
def encodeUnit (u : UInt16) : List UInt8 :=
  let n := u.toNat
  if 0x01 ≤ n ∧ n ≤ 0x7F then [n.toUInt8]
  else if n ≤ 0x7FF then [(0xC0 + n / 64).toUInt8, (0x80 + n % 64).toUInt8]
  else [(0xE0 + n / 4096).toUInt8, (0x80 + n / 64 % 64).toUInt8, (0x80 + n % 64).toUInt8]

/-- The bytes of a text. -/
def encode (s : List Char) : List UInt8 := (Text.units s).flatMap encodeUnit

/-- The payload of a byte that continues a unit. -/
def continuation? (b : UInt8) : Option Nat :=
  if 0x80 ≤ b ∧ b ≤ 0xBF then some (b.toNat - 0x80) else none

/-- A unit that is being read: its bits so far, and how many bytes are owed. -/
structure Pending where
  bits : Nat
  owed : Nat

/-- Start a unit, or give it at once if it is a single byte. -/
def start? (b : UInt8) : Option (UInt16 ⊕ Pending) :=
  let n := b.toNat
  if 0x01 ≤ n ∧ n ≤ 0x7F then some (.inl n.toUInt16)
  else if 0xC0 ≤ n ∧ n ≤ 0xDF then some (.inr ⟨n - 0xC0, 1⟩)
  else if 0xE0 ≤ n ∧ n ≤ 0xEF then some (.inr ⟨n - 0xE0, 2⟩)
  else none

/-- Take one more byte of a unit. -/
def Pending.next? (p : Pending) (b : UInt8) : Option (UInt16 ⊕ Pending) :=
  (continuation? b).map fun payload =>
    let bits := p.bits * 64 + payload
    if p.owed ≤ 1 then .inl bits.toUInt16 else .inr ⟨bits, p.owed - 1⟩

/-- The units of bytes, last unit first, put before `read`. -/
def unitsFrom? (read : List UInt16) : Option Pending → List UInt8 → Option (List UInt16)
  | none, [] => some read
  | some _, [] => none
  | pending, b :: rest =>
      match pending.elim (start? b) (·.next? b) with
      | some (.inl u) => unitsFrom? (u :: read) none rest
      | some (.inr p) => unitsFrom? read (some p) rest
      | none => none

def units? (bytes : List UInt8) : Option (List UInt16) :=
  (unitsFrom? [] none bytes).map List.reverse

def decode? (bytes : List UInt8) : Option (List Char) := (units? bytes).bind Text.ofUnits?

end JarRemap.ModifiedUtf8
