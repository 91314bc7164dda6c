import JarRemap.Decimal
import JarRemap.Json.Token

/-!
# JSON numbers

What a numeral stands for: an integer if it has neither point nor exponent and fits 64 bits, else a
double. A double is read as a significand of 64 bits times a power of ten, both rounded; digits that
do not fit the significand count by their number alone. A double that is too large is refused.
-/

namespace JarRemap.Json

/-- A number. -/
inductive Number where
  | integer (n : Int)
  | double (x : Float)

namespace Number

/-- Take digits into a significand while it fits 64 bits; also the digits that are left. -/
def absorb (m : Nat) : List Nat → Nat × List Nat
  | [] => (m, [])
  | d :: rest => if m * 10 + d < UInt64.size then absorb (m * 10 + d) rest else (m, d :: rest)

/-- A power of ten that a double can hold. -/
def power (e : Nat) : Float := Float.ofScientific 1 false e

/-- Divide by a power of ten, in steps that a double can hold. -/
def divide (x : Float) (e : Nat) : Float :=
  if h : e ≤ 308 then x / power e
  else if x == 0.0 then x else divide (x / power 308) (e - 308)
termination_by e

/-- Scale a significand by a power of ten; `none` if the result is too large. -/
def scale? (m : Nat) (exponent : Int) : Option Float :=
  let x := m.toUInt64.toFloat
  if exponent < 0 then some (divide x exponent.natAbs)
  else if exponent ≤ 308 then
    let y := x * power exponent.natAbs
    if y.isInf then none else some y
  else if m = 0 then some x
  else none

/-- The value of digits. -/
def natOf (digits : List Nat) : Nat := digits.foldl (fun n d => n * 10 + d) 0

/-- The largest exponent that is counted; a sum with a larger one stops here. -/
def exponentLimit : Nat := 0x7FFFFFFF

/-- The magnitude of a numeral that is no integer of 64 bits. An exponent beyond the limit makes
the number zero, or too large. -/
def magnitude? (n : Numeral) : Option Float :=
  let (m, left) := absorb 0 n.whole
  let fraction := n.fraction.getD []
  let (m, leftBehind) := absorb m fraction
  let exponent : Int := (left.length : Int) - (fraction.length - leftBehind.length : Nat)
  match n.exponent with
  | none => scale? m exponent
  | some (negative, digits) =>
      let e := natOf digits
      if exponentLimit < e then if m ≠ 0 ∧ !negative then none else some 0.0
      else if negative then scale? m (max (exponent - e) (-0x80000000))
      else scale? m (min (exponent + e) exponentLimit)

/-- The number of a numeral. Minus zero is a double, because no integer has its sign. -/
def ofNumeral? (n : Numeral) : Option Number :=
  let value := natOf n.whole
  if n.fraction.isNone ∧ n.exponent.isNone ∧ value < UInt64.size ∧ !n.negative then
    some (integer value)
  else if n.fraction.isNone ∧ n.exponent.isNone ∧ 0 < value ∧ value ≤ UInt64.size / 2 then
    some (integer (-value))
  else (magnitude? n).map fun x => double (if n.negative then -x else x)

def digitChars (digits : List Nat) : List Char := digits.map fun d => Char.ofNat (0x30 + d)

/-- A decimal in writing: with a point between digits if its first digit stands at most sixteen
places before the point and at most five behind it, else with one digit before the point and an
exponent. -/
def render (d : Decimal.Digits) : List Char :=
  let digits := digitChars d.digits
  if 0 < d.exponent ∧ d.exponent ≤ 16 then
    let places := d.exponent.toNat
    let whole := digits.take places ++ List.replicate (places - digits.length) '0'
    let fraction := digits.drop places
    whole ++ '.' :: if fraction.isEmpty then ['0'] else fraction
  else if -5 < d.exponent ∧ d.exponent ≤ 0 then
    '0' :: '.' :: List.replicate (-d.exponent).toNat '0' ++ digits
  else
    let e := d.exponent - 1
    let sign := if e < 0 then '-' else '+'
    let tail := digits.drop 1
    digits.take 1 ++ (if tail.isEmpty then [] else '.' :: tail) ++
      'e' :: sign :: Nat.toDigits 10 e.natAbs

/-- A double in writing. -/
def renderDouble (x : Float) : List Char :=
  let (m, q) := Decimal.parts x
  (if Decimal.isNegative x then ['-'] else []) ++
    if m = 0 then ['0', '.', '0'] else render (Decimal.shortest m q)

/-- A number in writing. -/
def print : Number → List Char
  | integer n => (if n < 0 then ['-'] else []) ++ Nat.toDigits 10 n.natAbs
  | double x => renderDouble x

end Number

end JarRemap.Json
