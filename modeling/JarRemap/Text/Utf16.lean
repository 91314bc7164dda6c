/-!
# UTF-16

The units of a text: one for most characters, a leading and a trailing one for each character
beyond the first 65536. A half that stands alone is no character.
-/

namespace JarRemap.Text

/-- Whether a unit is the first of two. -/
def isLeading (u : UInt16) : Bool := 0xD800 ≤ u && u ≤ 0xDBFF

/-- Whether a unit is the second of two. -/
def isTrailing (u : UInt16) : Bool := 0xDC00 ≤ u && u ≤ 0xDFFF

def joinUnits (leading trailing : UInt16) : Char :=
  Char.ofNat (0x10000 + (leading.toNat - 0xD800) * 0x400 + (trailing.toNat - 0xDC00))

def unitsOfChar (c : Char) : List UInt16 :=
  let n := c.toNat
  if n < 0x10000 then [n.toUInt16]
  else [(0xD800 + (n - 0x10000) / 0x400).toUInt16, (0xDC00 + (n - 0x10000) % 0x400).toUInt16]

/-- The units of a text. -/
def units (s : List Char) : List UInt16 := s.flatMap unitsOfChar

/-- The text of units, last character first, put before `read`; `half` is a leading unit that waits
for its other half. -/
def ofUnitsFrom? (read : List Char) : Option UInt16 → List UInt16 → Option (List Char)
  | none, [] => some read
  | some _, [] => none
  | none, u :: rest =>
      if isLeading u then ofUnitsFrom? read (some u) rest
      else if isTrailing u then none
      else ofUnitsFrom? (Char.ofNat u.toNat :: read) none rest
  | some half, u :: rest =>
      if isTrailing u then ofUnitsFrom? (joinUnits half u :: read) none rest else none

/-- The text of units, if every half has its other half. -/
def ofUnits? (s : List UInt16) : Option (List Char) := (ofUnitsFrom? [] none s).map List.reverse

end JarRemap.Text
