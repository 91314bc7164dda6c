/-!
# The shortest decimal of a double

A finite double `m · 2 ^ q` stands for all real numbers that round to it. Among the decimals in that
interval those with the fewest digits are chosen, and of these the one nearest to the double. The
bounds of the interval belong to it if `m` is even.
-/

namespace JarRemap.Decimal

/-- The real numbers that round to a double, as numerators over one denominator. -/
structure Interval where
  low : Nat
  /-- The double itself. -/
  value : Nat
  high : Nat
  denominator : Nat
  /-- Whether the bounds belong to the interval. -/
  closed : Bool
deriving DecidableEq, Repr

/-- Digits of a decimal, the first of which stands directly behind the point, and the power of ten
it is multiplied by. -/
structure Digits where
  digits : List Nat
  exponent : Int
deriving DecidableEq, Repr

/-- The interval of `m · 2 ^ q`. The double below a power of two is only half as far away, unless
`q` is the least exponent there is. -/
def interval (m : Nat) (q : Int) (least : Int) : Interval :=
  let below := if m = Nat.pow 2 52 ∧ least < q then 1 else 2
  let unit := Nat.pow 2 (q - 2).toNat
  ⟨(4 * m - below) * unit, 4 * m * unit, (4 * m + 2) * unit, Nat.pow 2 (2 - q).toNat,
    m % 2 = 0⟩

namespace Interval

/-- Whether `a · 10 ^ k` lies in the interval. -/
def holds (i : Interval) (a : Nat) (k : Int) : Bool :=
  let x := a * Nat.pow 10 k.toNat * i.denominator
  let down := Nat.pow 10 (-k).toNat
  if i.closed then i.low * down ≤ x && x ≤ i.high * down else i.low * down < x && x < i.high * down

/-- How far `a · 10 ^ k` is from the value, in a unit that depends on `k` alone. -/
def distance (i : Interval) (a : Nat) (k : Int) : Nat :=
  let x := a * Nat.pow 10 k.toNat * i.denominator
  let y := i.value * Nat.pow 10 (-k).toNat
  (x - y) + (y - x)

/-- The whole number of steps of `10 ^ k` in the value. -/
def floor (i : Interval) (k : Int) : Nat :=
  i.value * Nat.pow 10 (-k).toNat / (i.denominator * Nat.pow 10 k.toNat)

/-- The better of the two neighbours of the value among the multiples of `10 ^ k`, if any lies in
the interval. Of two that are equally near the even one is taken. -/
def nearest? (i : Interval) (k : Int) : Option Nat :=
  let a := i.floor k
  match i.holds a k, i.holds (a + 1) k with
  | true, true =>
      let below := i.distance a k
      let above := i.distance (a + 1) k
      some (if below < above ∨ (below = above ∧ a % 2 = 0) then a else a + 1)
  | true, false => some a
  | false, true => some (a + 1)
  | false, false => none

/-- The power of ten that stands before the first digit of the value: the least `e` with
`value < 10 ^ e`, looked for upwards from a power that is too small. -/
def magnitude (i : Interval) : Nat → Int → Int
  | 0, e => e
  | fuel + 1, e => if i.floor e = 0 then e else i.magnitude fuel (e + 1)

/-- The first grid that has a point in the interval, from the coarsest on. -/
def shortestFrom (i : Interval) : Nat → Int → Nat × Int
  | 0, k => (i.floor k, k)
  | fuel + 1, k =>
      match i.nearest? k with
      | some a => (a, k)
      | none => i.shortestFrom fuel (k - 1)

end Interval

/-- The decimal digits of a number, the last one first. -/
def reversedDigits : Nat → Nat → List Nat
  | 0, _ => []
  | fuel + 1, n => if n = 0 then [] else n % 10 :: reversedDigits fuel (n / 10)

/-- The digits of `a · 10 ^ k`, without zeros at the end. -/
def digitsOf (a : Nat) (k : Int) : Digits :=
  let reversed := reversedDigits (a + 1) a
  ⟨(reversed.dropWhile (· = 0)).reverse, k + reversed.length⟩

/-- The shortest decimal of `m · 2 ^ q`. -/
def shortest (m : Nat) (q : Int) : Digits :=
  let i := interval m q (-1074)
  let (a, k) := i.shortestFrom 20 (i.magnitude 700 (-340) - 1)
  digitsOf a k

/-- The significand and the exponent of a finite double, without its sign. -/
def parts (x : Float) : Nat × Int :=
  let bits := x.toBits.toNat
  let fraction : Nat := bits % Nat.pow 2 52
  let exponent : Nat := bits / Nat.pow 2 52 % Nat.pow 2 11
  if exponent = 0 then (fraction, -1074) else (Nat.pow 2 52 + fraction, (exponent : Int) - 1075)

/-- Whether a double has a minus sign. -/
def isNegative (x : Float) : Bool := x.toBits.toNat / Nat.pow 2 63 = 1

end JarRemap.Decimal
