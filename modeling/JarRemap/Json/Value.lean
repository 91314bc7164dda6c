import JarRemap.Json.Document
import JarRemap.Json.Number

/-!
# JSON values and their text

Values as they are read from a document, and as they are printed.
-/

/-!
## JSON values

A document in which every string is a text, every number has a value, and an object lists its
members in the order of their names, each once. Of two members of one name the later counts.
-/

namespace JarRemap

/-- A JSON value. -/
inductive Json where
  | null
  | bool (b : Bool)
  | number (n : Json.Number)
  | string (s : String)
  | array (items : List Json)
  | object (members : List (String × Json))

namespace Json

/-- Put a member into its place among members in the order of their names. -/
def insertMember {α : Type} (name : String) (a : α) : List (String × α) → List (String × α)
  | [] => [(name, a)]
  | (other, b) :: rest =>
      if name < other then (name, a) :: (other, b) :: rest
      else if name = other then (name, a) :: rest
      else (other, b) :: insertMember name a rest

/-- How deep arrays and objects may be nested. -/
def depthLimit : Nat := 127

mutual

/-- The value of a document that may be nested to a depth. -/
def ofDocument? (depth : Nat) : Document → Option Json
  | .null => some null
  | .bool b => some (bool b)
  | .number n => (Number.ofNumeral? n).map number
  | .string pieces => (textOf? pieces).map string
  | .array items =>
      if depth = 0 then none else (ofItems? (depth - 1) items).map array
  | .object members =>
      if depth = 0 then none else (ofMembers? (depth - 1) [] members).map object

/-- The values of documents. -/
def ofItems? (depth : Nat) : List Document → Option (List Json)
  | [] => some []
  | d :: rest =>
      match ofDocument? depth d with
      | none => none
      | some item => (ofItems? depth rest).map (item :: ·)

/-- The members of an object, put among those read before. -/
def ofMembers? (depth : Nat) (read : List (String × Json)) :
    List (List Piece × Document) → Option (List (String × Json))
  | [] => some read
  | (name, d) :: rest =>
      match textOf? name, ofDocument? depth d with
      | some name, some item => ofMembers? depth (insertMember name item read) rest
      | _, _ => none

end

/-- The value of a text. -/
def ofBytes? (bytes : List UInt8) : Option Json :=
  (Document.ofBytes? bytes).bind (ofDocument? depthLimit)

/-- The value of a member of an object. -/
def member? (name : String) : Json → Option Json
  | object members => (members.find? fun m => m.1 = name).map Prod.snd
  | _ => none

end Json

end JarRemap

/-!
## Printing JSON

Every item and member stands on a line of its own, two spaces deeper than what it belongs to; an
array or object without any is a pair of marks. Strings escape the quote, the backslash and the
controls, and nothing else.
-/

namespace JarRemap.Json

/-- A character of a string. -/
def printChar (c : Char) : List Char :=
  match c with
  | '"' => ['\\', '"']
  | '\\' => ['\\', '\\']
  | '\x08' => ['\\', 'b']
  | '\t' => ['\\', 't']
  | '\n' => ['\\', 'n']
  | '\x0C' => ['\\', 'f']
  | '\r' => ['\\', 'r']
  | _ =>
      if c.toNat < 0x20 then
        ['\\', 'u', '0', '0', Nat.digitChar (c.toNat / 16), Nat.digitChar (c.toNat % 16)]
      else [c]

def printString (s : String) : List Char := '"' :: s.toList.flatMap printChar ++ ['"']

def newLine (depth : Nat) : List Char := '\n' :: List.replicate (2 * depth) ' '

mutual

/-- A value at a depth. -/
def print (depth : Nat) : Json → List Char
  | null => "null".toList
  | bool b => if b then "true".toList else "false".toList
  | number n => n.print
  | string s => printString s
  | array [] => ['[', ']']
  | array (item :: items) =>
      '[' :: newLine (depth + 1) ++ print (depth + 1) item ++ printItems (depth + 1) items ++
        newLine depth ++ [']']
  | object [] => ['\x7b', '\x7d']
  | object ((name, item) :: members) =>
      '\x7b' :: newLine (depth + 1) ++ printString name ++ ':' :: ' ' :: print (depth + 1) item ++
        printMembers (depth + 1) members ++ newLine depth ++ ['\x7d']

/-- The items behind the first. -/
def printItems (depth : Nat) : List Json → List Char
  | [] => []
  | item :: rest => ',' :: newLine depth ++ print depth item ++ printItems depth rest

/-- The members behind the first. -/
def printMembers (depth : Nat) : List (String × Json) → List Char
  | [] => []
  | (name, item) :: rest =>
      ',' :: newLine depth ++ printString name ++ ':' :: ' ' :: print depth item ++
        printMembers depth rest

end

/-- The bytes of a value. -/
def toBytes (j : Json) : List UInt8 := Text.encode (j.print 0)

end JarRemap.Json
