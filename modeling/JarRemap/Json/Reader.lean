import JarRemap.Json.Document
import JarRemap.Json.Number

/-!
# Reading records from JSON

A record with known fields is an object with members of those names, or an array of the fields in
order. In an object each known field may occur once and fields that are not known are passed over,
unless only known ones are allowed; in an array the fields at the end that have a default may be
left out.
-/

namespace JarRemap.Json

/-- A field of a record. -/
structure Field where
  name : String
  /-- Whether an array may end before the field. -/
  hasDefault : Bool := true

namespace Document

def text? : Document → Option String
  | string pieces => textOf? pieces
  | _ => none

/-- The value of a truth value. -/
def flag? : Document → Option Bool
  | bool b => some b
  | _ => none

/-- The value of a whole number of sixteen bits. -/
def index? : Document → Option UInt16
  | number n =>
      match Number.ofNumeral? n with
      | some (.integer i) => if 0 ≤ i ∧ i < 65536 then some i.toNat.toUInt16 else none
      | _ => none
  | _ => none

/-- What a reader makes of the items of an array. -/
def itemsWith? {α : Type} (read : Document → Option α) : Document → Option (List α)
  | array items => items.mapM read
  | _ => none

/-- What a reader makes of anything but null, which stands for nothing. -/
def optional? {α : Type} (read : Document → Option α) : Document → Option (Option α)
  | null => some none
  | d => (read d).map some

/-- The members of an object with the texts of their names. -/
def named? : List (List Piece × Document) → Option (List (String × Document))
  | [] => some []
  | (name, d) :: rest =>
      match textOf? name with
      | none => none
      | some name => (named? rest).map ((name, d) :: ·)

/-- The value of a field among members, `none` inside if it is left out; no value at all if the
field occurs twice. -/
def field? (members : List (String × Document)) (name : String) : Option (Option Document) :=
  match members.filter fun m => m.1 = name with
  | [] => some none
  | [m] => some (some m.2)
  | _ => none

/-- The fields of a record, in order. -/
def fields? (fields : List Field) (onlyKnown : Bool) : Document → Option (List (Option Document))
  | object members => do
      let members ← named? members
      let known (name : String) : Bool := fields.any fun f => f.name = name
      if onlyKnown && !members.all fun m => known m.1 then none
      else fields.mapM fun f => field? members f.name
  | array items =>
      if fields.length < items.length then none
      else if (fields.drop items.length).all Field.hasDefault then
        some (items.map some ++ (fields.drop items.length).map fun _ => none)
      else none
  | _ => none

def readField? {α : Type} (read : Document → Option α) (default : α) :
    Option Document → Option α
  | none => some default
  | some d => read d

end Document

end JarRemap.Json
