import JarRemap.Text.Utf16
import JarRemap.Text.Utf8
import JarRemap.Json.Token

/-!
# JSON documents

The tree that the tokens of a text form. Nothing in it is interpreted: members of an object may
share a name, numbers may be of any size, and arrays may be nested to any depth.
-/

namespace JarRemap.Json

/-- A JSON text as it is written. -/
inductive Document where
  | null
  | bool (b : Bool)
  | number (n : Numeral)
  | string (pieces : List Piece)
  | array (items : List Document)
  | object (members : List (List Piece × Document))
deriving Repr

namespace Document

mutual

/-- A value at the start of some tokens, and the tokens behind it. The number bounds their count. -/
def value? : Nat → List Token → Option (Document × List Token)
  | _ + 1, .null :: rest => some (null, rest)
  | _ + 1, .bool b :: rest => some (bool b, rest)
  | _ + 1, .number n :: rest => some (number n, rest)
  | _ + 1, .string pieces :: rest => some (string pieces, rest)
  | _ + 1, .mark '[' :: .mark ']' :: rest => some (array [], rest)
  | fuel + 1, .mark '[' :: rest =>
      (items? fuel rest).map fun (items, rest) => (array items, rest)
  | _ + 1, .mark '\x7b' :: .mark '\x7d' :: rest => some (object [], rest)
  | fuel + 1, .mark '\x7b' :: rest =>
      (members? fuel rest).map fun (members, rest) => (object members, rest)
  | _, _ => none

/-- One item of an array or more, and the closing bracket. -/
def items? : Nat → List Token → Option (List Document × List Token)
  | 0, _ => none
  | fuel + 1, tokens => do
      let (item, rest) ← value? fuel tokens
      match rest with
      | .mark ',' :: rest => (items? fuel rest).map fun (items, rest) => (item :: items, rest)
      | .mark ']' :: rest => some ([item], rest)
      | _ => none

/-- One member of an object or more, and the closing brace. -/
def members? : Nat → List Token → Option (List (List Piece × Document) × List Token)
  | fuel + 1, .string name :: .mark ':' :: tokens => do
      let (item, rest) ← value? fuel tokens
      match rest with
      | .mark ',' :: rest =>
          (members? fuel rest).map fun (members, rest) => ((name, item) :: members, rest)
      | .mark '\x7d' :: rest => some ([(name, item)], rest)
      | _ => none
  | _, _ => none

end

/-- The document of a text, or `none` if the text is no JSON. -/
def ofBytes? (bytes : List UInt8) : Option Document := do
  let tokens ← tokens? bytes
  match value? (tokens.length + 1) tokens with
  | some (document, []) => some document
  | _ => none

/-- The document of a text, or `none` if the text is no JSON. -/
def ofText? (text : List Char) : Option Document := ofBytes? (Text.encode text)

end Document

/-- The bytes of a string, if every half of a pair has its other half. -/
def bytesOf? : List Piece → Option (List UInt8)
  | [] => some []
  | .byte b :: rest => (bytesOf? rest).map (b :: ·)
  | .unit u :: .unit v :: rest =>
      if Text.isLeading u then
        if Text.isTrailing v then (bytesOf? rest).map (Text.encodeChar (Text.joinUnits u v) ++ ·)
        else none
      else if Text.isTrailing u then none
      else (bytesOf? (.unit v :: rest)).map (Text.encodeChar (Char.ofNat u.toNat) ++ ·)
  | .unit u :: rest =>
      if Text.isLeading u || Text.isTrailing u then none
      else (bytesOf? rest).map (Text.encodeChar (Char.ofNat u.toNat) ++ ·)

/-- The text of a string, if its escapes and its bytes make one. -/
def textOf? (pieces : List Piece) : Option String :=
  ((bytesOf? pieces).bind Text.decode?).map String.ofList

end JarRemap.Json
