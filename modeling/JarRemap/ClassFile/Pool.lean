import Std.Data.HashMap
import JarRemap.ClassFile.Constant
import JarRemap.ClassFile.Decoder

/-!
# Pools that grow

A pool that constants are appended to. A text or a pair of name and descriptor that the pool has
already is not appended again: the first index it stands at is used. The pool never shrinks, and no
constant moves.
-/

namespace JarRemap

/-- A pool with the first index of each text and each pair in it. -/
structure Pool where
  constants : Constants
  texts : Std.HashMap String UInt16 := {}
  pairs : Std.HashMap (UInt16 × UInt16) UInt16 := {}

/-- Computations that may append to a pool. What was appended before a fault stays. -/
abbrev WithPool := ExceptT ClassFault (StateM Pool)

namespace Pool

/-- The number of slots beyond which a pool cannot grow. -/
def limit : Nat := 0xFFFF

/-- Note the constant at an index, unless an earlier index has the same. -/
def note (p : Pool) (index : Nat) : Constant → Pool
  | .utf8 text => { p with texts := p.texts.insertIfNew text index.toUInt16 }
  | .nameAndType name desc => { p with pairs := p.pairs.insertIfNew (name, desc) index.toUInt16 }
  | _ => p

def ofConstants (constants : Constants) : Pool :=
  constants.toList.zipIdx.foldl (fun p item => p.note item.2 item.1) { constants }

/-- How many slots there are. -/
def size (p : Pool) : Nat := p.constants.size

/-- Append a constant of one slot. -/
def push (c : Constant) : WithPool UInt16 := fun p =>
  let size := p.size
  if limit ≤ size then (.error .poolFull, p)
  else (.ok size.toUInt16, { p with constants := p.constants.push c }.note size c)

/-- The index of a text, which is appended if the pool lacks it. -/
def internText (text : String) : WithPool UInt16 := fun p =>
  match p.texts[text]? with
  | some index => (.ok index, p)
  | none => push (.utf8 text) p

/-- The index of a name with a descriptor; the texts and the pair are appended if the pool lacks
them. -/
def internPair (name desc : String) : WithPool UInt16 := do
  let name ← internText name
  let desc ← internText desc
  match (← get).pairs[(name, desc)]? with
  | some index => return index
  | none => push (.nameAndType name desc)

/-- Replace the constant at an index. Texts and pairs are never replaced. -/
def replace (index : Nat) (c : Constant) : WithPool Unit :=
  modify fun p => { p with constants := p.constants.set! index c }

end Pool

end JarRemap
