/-!
# UTF-8

Bytes to characters and back. `decode?` refuses bytes that are not UTF-8; `decodeLossy` puts one
replacement character for every maximal run of bytes that starts a character but cannot end it.
-/

namespace JarRemap.Text

/-- The bytes of a character. -/
def encodeChar (c : Char) : List UInt8 :=
  let n := c.toNat
  if n < 0x80 then [n.toUInt8]
  else if n < 0x800 then [(0xC0 + n / 64).toUInt8, (0x80 + n % 64).toUInt8]
  else if n < 0x10000 then
    [(0xE0 + n / 4096).toUInt8, (0x80 + n / 64 % 64).toUInt8, (0x80 + n % 64).toUInt8]
  else
    [(0xF0 + n / 262144).toUInt8, (0x80 + n / 4096 % 64).toUInt8, (0x80 + n / 64 % 64).toUInt8,
      (0x80 + n % 64).toUInt8]

/-- The bytes of a text. -/
def encode (s : List Char) : List UInt8 := s.flatMap encodeChar

/-- How many bytes a character takes. -/
def encodedSize (c : Char) : Nat := (encodeChar c).length

/-- Whether a byte continues a character. -/
def isContinuation (b : UInt8) : Bool := 0x80 ≤ b && b ≤ 0xBF

/-- The bytes allowed behind a first byte: the bounds of the second byte and how many follow in
all. The bounds leave out long forms, surrogates and code points that are too large. -/
def continuation? (first : UInt8) : Option (UInt8 × UInt8 × Nat) :=
  if 0xC2 ≤ first && first ≤ 0xDF then some (0x80, 0xBF, 1)
  else if first == 0xE0 then some (0xA0, 0xBF, 2)
  else if first == 0xED then some (0x80, 0x9F, 2)
  else if 0xE1 ≤ first && first ≤ 0xEF then some (0x80, 0xBF, 2)
  else if first == 0xF0 then some (0x90, 0xBF, 3)
  else if 0xF1 ≤ first && first ≤ 0xF3 then some (0x80, 0xBF, 3)
  else if first == 0xF4 then some (0x80, 0x8F, 3)
  else none

/-- The payload of a first byte. -/
def firstBits (first : UInt8) (following : Nat) : Nat :=
  match following with
  | 1 => first.toNat - 0xC0
  | 2 => first.toNat - 0xE0
  | _ => first.toNat - 0xF0

/-- A character that is being read: the bits so far, and for the bytes still owed the bounds of the
next one and their number. -/
structure Pending where
  bits : Nat
  low : UInt8
  high : UInt8
  owed : Nat

/-- Start a character, or give it at once if it is a single byte. -/
def start (b : UInt8) : Option (Char ⊕ Pending) :=
  if b < 0x80 then some (.inl (Char.ofNat b.toNat))
  else (continuation? b).map fun (low, high, owed) => .inr ⟨firstBits b owed, low, high, owed⟩

/-- Take one more byte of a character. -/
def Pending.next (p : Pending) (b : UInt8) : Char ⊕ Pending :=
  let bits := p.bits * 64 + (b.toNat - 0x80)
  if p.owed ≤ 1 then .inl (Char.ofNat bits) else .inr ⟨bits, 0x80, 0xBF, p.owed - 1⟩

/-- The text, last character first, put before `read`; `none` if the bytes are not UTF-8. -/
def decodeFrom? (read : List Char) : Option Pending → List UInt8 → Option (List Char)
  | none, [] => some read
  | some _, [] => none
  | none, b :: rest =>
      match start b with
      | some (.inl c) => decodeFrom? (c :: read) none rest
      | some (.inr p) => decodeFrom? read (some p) rest
      | none => none
  | some p, b :: rest =>
      if p.low ≤ b && b ≤ p.high then
        match p.next b with
        | .inl c => decodeFrom? (c :: read) none rest
        | .inr q => decodeFrom? read (some q) rest
      else none

/-- The text of bytes that are UTF-8. -/
def decode? (bytes : List UInt8) : Option (List Char) :=
  (decodeFrom? [] none bytes).map List.reverse

/-- What stands for bytes that are no character. -/
def replacement : Char := '\uFFFD'

/-- Start reading at a byte outside any character: the text so far and the character begun. -/
def startLossy (read : List Char) (b : UInt8) : List Char × Option Pending :=
  match start b with
  | some (.inl c) => (c :: read, none)
  | some (.inr p) => (read, some p)
  | none => (replacement :: read, none)

/-- The text, last character first, with one replacement character for each maximal run of bytes
that begins no character. -/
def decodeLossyFrom (read : List Char) : Option Pending → List UInt8 → List Char
  | none, [] => read
  | some _, [] => replacement :: read
  | none, b :: rest =>
      let next := startLossy read b
      decodeLossyFrom next.1 next.2 rest
  | some p, b :: rest =>
      if p.low ≤ b && b ≤ p.high then
        match p.next b with
        | .inl c => decodeLossyFrom (c :: read) none rest
        | .inr q => decodeLossyFrom read (some q) rest
      else
        let next := startLossy (replacement :: read) b
        decodeLossyFrom next.1 next.2 rest

/-- The text of any bytes. -/
def decodeLossy (bytes : List UInt8) : List Char := (decodeLossyFrom [] none bytes).reverse

/-- The mark some files begin with to show their byte order. -/
def byteOrderMark : Char := '\uFEFF'

/-- Drop one byte order mark at the start. -/
def dropMark : List Char → List Char
  | c :: rest => if c = byteOrderMark then rest else c :: rest
  | [] => []

end JarRemap.Text
