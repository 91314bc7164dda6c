/-!
# Numerals

Unsigned numbers as files write them: digits, with an optional plus sign before them, and no more
than a given bound. Base ten is usual; the rows of a table may also be in base sixteen.
-/

namespace JarRemap.Text

/-- The value of a digit in a base of at most sixteen. -/
def digit? (base : Nat) (c : Char) : Option Nat :=
  let n := c.toNat
  let value :=
    if 0x30 ≤ n ∧ n ≤ 0x39 then some (n - 0x30)
    else if 0x61 ≤ n ∧ n ≤ 0x66 then some (n - 0x61 + 10)
    else if 0x41 ≤ n ∧ n ≤ 0x46 then some (n - 0x41 + 10)
    else none
  value.filter (· < base)

/-- The value of a text of digits, on top of the digits read before it. -/
def digitsFrom? (base value : Nat) : List Char → Option Nat
  | [] => some value
  | c :: rest => (digit? base c).bind fun d => digitsFrom? base (value * base + d) rest

/-- The value of one or more digits with an optional plus sign before them, if it is below
`bound`. -/
def numeral? (base bound : Nat) (s : List Char) : Option Nat :=
  let digits := match s with
    | '+' :: rest => rest
    | _ => s
  if digits.isEmpty then none else (digitsFrom? base 0 digits).filter (· < bound)

/-- A number of sixteen bits in base ten. -/
def index? (s : List Char) : Option UInt16 := (numeral? 10 65536 s).map Nat.toUInt16

/-- The digits of a number in base sixteen, in lower case. -/
def hex (n : Nat) : List Char := Nat.toDigits 16 n

end JarRemap.Text
