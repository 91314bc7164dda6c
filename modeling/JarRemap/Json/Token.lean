import JarRemap.Text.Numeral

/-!
# The tokens of a JSON text

A text is cut into marks, strings, numerals and the three words. Strings and numerals are kept as
they are written, because what they stand for matters only where a value is read; a string whose
escapes make no text can be skipped, but not read.
-/

namespace JarRemap.Json

/-- A piece of a string: a byte that stands for itself, or an escape of a UTF-16 unit. -/
inductive Piece where
  | byte (b : UInt8)
  | unit (u : UInt16)
deriving DecidableEq, Repr

/-- A number as it is written: digits before and behind the point, and the exponent. -/
structure Numeral where
  negative : Bool
  whole : List Nat
  fraction : Option (List Nat) := none
  /-- Whether the exponent is negative, and its digits. -/
  exponent : Option (Bool × List Nat) := none
deriving DecidableEq, Repr

/-- A piece of a text. -/
inductive Token where
  /-- One of the marks that arrays and objects are written with. -/
  | mark (c : Char)
  | string (pieces : List Piece)
  | number (n : Numeral)
  | bool (b : Bool)
  | null
deriving DecidableEq, Repr

namespace Numeral

/-- The value of a digit. -/
def digit? (c : Char) : Option Nat := Text.digit? 10 c

/-- The digits a text begins with, and the rest. -/
def digits (s : List Char) : List Nat × List Char :=
  ((s.takeWhile fun c => (digit? c).isSome).filterMap digit?,
    s.dropWhile fun c => (digit? c).isSome)

/-- One digit or more, and the rest. -/
def someDigits? (s : List Char) : Option (List Nat × List Char) :=
  let read := digits s
  if read.1.isEmpty then none else some read

/-- An exponent, which ends the numeral. -/
def exponent? (s : List Char) : Option (Option (Bool × List Nat)) :=
  match s with
  | [] => some none
  | e :: rest =>
      if e = 'e' ∨ e = 'E' then
        let (negative, rest) := match rest with
          | '+' :: rest => (false, rest)
          | '-' :: rest => (true, rest)
          | _ => (false, rest)
        match someDigits? rest with
        | some (digits, []) => some (some (negative, digits))
        | _ => none
      else none

/-- The numeral of a text without its sign. A first digit zero stands alone. -/
def ofUnsigned? (negative : Bool) (s : List Char) : Option Numeral := do
  let (whole, rest) ← someDigits? s
  if whole.head? = some 0 ∧ whole.length ≠ 1 then none
  else
    match rest with
    | '.' :: rest => do
        let (fraction, rest) ← someDigits? rest
        return ⟨negative, whole, some fraction, ← exponent? rest⟩
    | _ => return ⟨negative, whole, none, ← exponent? rest⟩

def ofText? : List Char → Option Numeral
  | '-' :: rest => ofUnsigned? true rest
  | s => ofUnsigned? false s

end Numeral

/-- The token of a run of letters, digits and signs. -/
def Token.ofWord? (word : List Char) : Option Token :=
  match String.ofList word with
  | "true" => some (.bool true)
  | "false" => some (.bool false)
  | "null" => some .null
  | _ => (Numeral.ofText? word).map .number

/-- What a scanner is in the middle of; all pieces are held last first. -/
inductive Scan where
  | idle
  /-- A run of letters, digits and signs. -/
  | word (word : List Char)
  /-- A string. -/
  | string (pieces : List Piece)
  /-- A string, behind a backslash. -/
  | escape (pieces : List Piece)
  /-- A string, behind a number of the four digits of an escaped unit. -/
  | unit (pieces : List Piece) (read value : Nat)

namespace Scan

/-- Whether a character may stand in a word or a numeral. -/
def isWordChar (c : Char) : Bool := c.isAlphanum || c = '+' || c = '-' || c = '.'

def isMark (c : Char) : Bool :=
  c = '[' || c = ']' || c = '\x7b' || c = '\x7d' || c = ',' || c = ':'

/-- Whether a character may stand between tokens. -/
def isSpace (c : Char) : Bool := c = ' ' || c = '\t' || c = '\n' || c = '\r'

/-- Take a byte outside strings and words. -/
def begin? (b : UInt8) : Option (Scan × List Token) :=
  let c := Char.ofNat b.toNat
  if isSpace c then some (idle, [])
  else if isMark c then some (idle, [.mark c])
  else if c = '"' then some (string [], [])
  else if isWordChar c then some (word [c], [])
  else none

/-- What an escape by one letter stands for. -/
def escaped? (c : Char) : Option UInt16 :=
  match c with
  | '"' => some 0x22
  | '\\' => some 0x5C
  | '/' => some 0x2F
  | 'b' => some 0x08
  | 'f' => some 0x0C
  | 'n' => some 0x0A
  | 'r' => some 0x0D
  | 't' => some 0x09
  | _ => none

/-- Take a byte, and give the tokens it ends. -/
def next? (b : UInt8) : Scan → Option (Scan × List Token)
  | idle => begin? b
  | word w =>
      let c := Char.ofNat b.toNat
      if isWordChar c then some (word (c :: w), [])
      else do
        let token ← Token.ofWord? w.reverse
        let (scan, tokens) ← begin? b
        return (scan, token :: tokens)
  | string pieces =>
      if b = 0x22 then some (idle, [.string pieces.reverse])
      else if b = 0x5C then some (escape pieces, [])
      else if b < 0x20 then none
      else some (string (.byte b :: pieces), [])
  | escape pieces =>
      if b = 0x75 then some (unit pieces 0 0, [])
      else (escaped? (Char.ofNat b.toNat)).map fun n => (string (.unit n :: pieces), [])
  | unit pieces read value =>
      (Text.digit? 16 (Char.ofNat b.toNat)).map fun d =>
        let value := value * 16 + d
        if read = 3 then (string (.unit value.toUInt16 :: pieces), [])
        else (unit pieces (read + 1) value, [])

/-- The token that the end of the text ends. -/
def last? : Scan → Option (List Token)
  | idle => some []
  | word w => (Token.ofWord? w.reverse).map fun token => [token]
  | _ => none

/-- The tokens of a text, put behind those before, all held last first. -/
def tokensFrom? (before : List Token) (scan : Scan) : List UInt8 → Option (List Token)
  | [] => (last? scan).map fun tokens => tokens ++ before
  | b :: rest =>
      match next? b scan with
      | none => none
      | some (scan, tokens) => tokensFrom? (tokens.reverse ++ before) scan rest

end Scan

/-- The tokens of a text, or `none` if it cannot be cut into tokens. -/
def tokens? (bytes : List UInt8) : Option (List Token) :=
  (Scan.tokensFrom? [] .idle bytes).map List.reverse

end JarRemap.Json
