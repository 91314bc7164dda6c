/-!
# Bits and prefix codes

Compressed bytes are read as bits, the lowest bit of a byte first. A symbol is written as a word of
a prefix code, which is fixed by the lengths of its words alone: shorter words come before longer
ones, and words of one length are in the order of their symbols.
-/

namespace JarRemap.Zip

/-- The bits that are still to be read: what is left of a byte, and the bytes behind it. -/
structure Bits where
  held : Nat := 0
  count : Nat := 0
  rest : List UInt8
deriving Repr

abbrev BitReader := StateT Bits Option

namespace BitReader

def bit : BitReader Nat := fun b =>
  match b.count, b.rest with
  | n + 1, rest => some (b.held % 2, ⟨b.held / 2, n, rest⟩)
  | 0, byte :: rest => some (byte.toNat % 2, ⟨byte.toNat / 2, 7, rest⟩)
  | 0, [] => none

/-- Read a number of so many bits, the lowest first. -/
def number : Nat → BitReader Nat
  | 0 => pure 0
  | n + 1 => do
      let low ← bit
      return low + 2 * (← number n)

def numbers (bits : Nat) : Nat → BitReader (List Nat)
  | 0 => pure []
  | n + 1 => do
      let first ← number bits
      return first :: (← numbers bits n)

/-- Skip to the next whole byte. -/
def align : BitReader Unit := modify fun b => ⟨0, 0, b.rest⟩

/-- Take whole bytes. -/
def bytes (n : Nat) : BitReader (List UInt8) := fun b =>
  let taken := b.rest.take n
  if taken.length = n then some (taken, ⟨0, 0, b.rest.drop n⟩) else none

end BitReader

/-- A prefix code. -/
structure PrefixCode where
  /-- How many words have one bit, two bits, and so on. -/
  counts : List Nat
  /-- The symbols in the order of their words. -/
  symbols : Array Nat
deriving Repr

namespace PrefixCode

/-- The longest words any code may have. -/
def longest : Nat := 15

/-- The code in which each symbol has a word of a given length; no word if that is zero. -/
def ofLengths (lengths : List Nat) : PrefixCode :=
  let sizes := (List.range longest).map (· + 1)
  { counts := sizes.map lengths.count
    symbols := (sizes.flatMap fun size =>
      (lengths.zipIdx.filter fun item => item.1 = size).map Prod.snd).toArray }

/-- Read the rest of a word: `first` is the first word of the length reached, and `index` the number
of all words that are shorter. -/
def symbolFrom (symbols : Array Nat) : List Nat → Nat → Nat → Nat → BitReader Nat
  | [], _, _, _ => failure
  | count :: longer, word, first, index => do
      let word := 2 * word + (← BitReader.bit)
      let first := 2 * first
      if word < first + count then
        match symbols[index + (word - first)]? with
        | some symbol => return symbol
        | none => failure
      else symbolFrom symbols longer word (first + count) (index + count)

def symbol (c : PrefixCode) : BitReader Nat := symbolFrom c.symbols c.counts 0 0 0

end PrefixCode

end JarRemap.Zip
