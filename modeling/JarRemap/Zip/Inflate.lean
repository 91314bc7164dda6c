import JarRemap.Zip.PrefixCode

/-!
# Compressed bytes

Compressed bytes are blocks, each stored as it is, or written in prefix codes that are fixed or
given at its start. A symbol is a byte, the end of the block, or the length of a repetition of bytes
a certain distance back.
-/

namespace JarRemap.Zip

/-- A number that a symbol stands for: its least value, and how many bits are added to it. -/
structure Step where
  least : Nat
  bits : Nat
deriving Repr

/-- Steps that begin at a value and go on with the given numbers of bits. -/
def steps : Nat → List Nat → List Step
  | _, [] => []
  | least, bits :: rest => ⟨least, bits⟩ :: steps (least + (1 <<< bits)) rest

/-- The lengths of repetitions. The greatest has a symbol of its own. -/
def lengthSteps : Array Step :=
  (steps 3 [0, 0, 0, 0, 0, 0, 0, 0, 1, 1, 1, 1, 2, 2, 2, 2, 3, 3, 3, 3, 4, 4, 4, 4, 5, 5, 5,
    5]).toArray.push ⟨258, 0⟩

/-- The distances of repetitions. -/
def distanceSteps : Array Step :=
  (steps 1 [0, 0, 0, 0, 1, 1, 2, 2, 3, 3, 4, 4, 5, 5, 6, 6, 7, 7, 8, 8, 9, 9, 10, 10, 11, 11,
    12, 12, 13, 13]).toArray

def stepNumber (steps : Array Step) (symbol : Nat) : BitReader Nat :=
  match steps[symbol]? with
  | some step => do return step.least + (← BitReader.number step.bits)
  | none => failure

/-- Repeat bytes a distance back, one after the other; so a repetition may reach into itself. -/
def repeatBytes (distance : Nat) : Nat → Array UInt8 → Array UInt8
  | 0, out => out
  | n + 1, out => repeatBytes distance n (out.push (out.getD (out.size - distance) 0))

/-- Read the symbols of a block. The first number bounds how many there are. -/
def codedBlock (literals distances : PrefixCode) : Nat → Array UInt8 → BitReader (Array UInt8)
  | 0, _ => failure
  | fuel + 1, out => do
      let symbol ← literals.symbol
      if symbol < 256 then codedBlock literals distances fuel (out.push symbol.toUInt8)
      else if symbol = 256 then return out
      else
        let length ← stepNumber lengthSteps (symbol - 257)
        let distance ← stepNumber distanceSteps (← distances.symbol)
        if out.size < distance then failure
        else codedBlock literals distances fuel (repeatBytes distance length out)

/-- Read a block of bytes stored as they are, behind their number and its complement. -/
def storedBlock (out : Array UInt8) : BitReader (Array UInt8) := do
  BitReader.align
  let length ← BitReader.number 16
  let complement ← BitReader.number 16
  if length + complement ≠ 0xFFFF then failure
  else return out ++ (← BitReader.bytes length).toArray

/-- The fixed code of bytes and lengths. -/
def fixedLiterals : PrefixCode :=
  .ofLengths (List.replicate 144 8 ++ List.replicate 112 9 ++ List.replicate 24 7 ++
    List.replicate 8 8)

def fixedDistances : PrefixCode := .ofLengths (List.replicate 30 5)

/-- The order in which the lengths of the first code of a block are given. -/
def codeOrder : List Nat := [16, 17, 18, 0, 8, 7, 9, 6, 10, 5, 11, 4, 12, 3, 13, 2, 14, 1, 15]

/-- Read the lengths of words until there are as many as wanted; `read` holds those before, the last
one first. A symbol is a length, or repeats the last length or none. -/
def codeLengths (code : PrefixCode) (wanted : Nat) : Nat → List Nat → BitReader (List Nat)
  | 0, _ => failure
  | fuel + 1, read => do
      if read.length = wanted then return read.reverse
      else if wanted < read.length then failure
      else
        let again (length : Nat) (least bits : Nat) : BitReader (List Nat) := do
          return List.replicate (least + (← BitReader.number bits)) length ++ read
        let more ← match ← code.symbol with
          | 16 => match read.head? with
              | some length => again length 3 2
              | none => failure
          | 17 => again 0 3 3
          | 18 => again 0 11 7
          | length => pure (length :: read)
        codeLengths code wanted fuel more

def blockCodes : BitReader (PrefixCode × PrefixCode) := do
  let literals := (← BitReader.number 5) + 257
  let distances := (← BitReader.number 5) + 1
  let given := (← BitReader.number 4) + 4
  let order := codeOrder.take given
  let sizes := order.zip (← BitReader.numbers 3 given)
  let code := PrefixCode.ofLengths ((List.range 19).map fun s => (sizes.lookup s).getD 0)
  let wanted := literals + distances
  let lengths ← codeLengths code wanted (wanted + 1) []
  return (.ofLengths (lengths.take literals), .ofLengths (lengths.drop literals))

/-- Read blocks up to the last one. The number bounds how many blocks, and how many symbols of a
block, there are. -/
def blocks (symbols : Nat) : Nat → Array UInt8 → BitReader (Array UInt8)
  | 0, _ => failure
  | fuel + 1, out => do
      let last ← BitReader.bit
      let out ← match ← BitReader.number 2 with
        | 0 => storedBlock out
        | 1 => codedBlock fixedLiterals fixedDistances symbols out
        | 2 => do
            let (literals, distances) ← blockCodes
            codedBlock literals distances symbols out
        | _ => failure
      if last = 1 then return out else blocks symbols fuel out

/-- The bytes that were compressed, or `none` if these are no compressed bytes. Every symbol and
every block takes a bit at least. -/
def inflate? (bytes : List UInt8) : Option (List UInt8) :=
  let bound := 8 * bytes.length + 1
  ((blocks bound bound #[]).run { rest := bytes }).map fun r => r.1.toList

end JarRemap.Zip
