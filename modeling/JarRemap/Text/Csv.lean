import JarRemap.Text.Utf8

/-!
# Tables of comma-separated values

A row is a line of fields between commas, and blank lines are no rows. A field that begins with a
quote runs to the next lone quote, so it may hold commas and line ends, and a doubled quote in it is
one quote; a quote anywhere else is a character like any other. Rows may have any number of fields.
-/

namespace JarRemap.Text.Csv

/-- A row of a table. -/
structure Row where
  /-- One more than the line feeds before the place where the row before it ended. -/
  line : Nat
  fields : List (List Char)
deriving DecidableEq, Repr

/-- Where a reader stands. -/
inductive Place where
  /-- Before the first field of a row. -/
  | rowStart
  /-- Before a field. -/
  | fieldStart
  /-- In a field. -/
  | plain
  /-- Between the quotes of a field. -/
  | quoted
  /-- Behind a quote that either ends the quoted part or is the first of two. -/
  | closing
deriving DecidableEq, Repr

/-- A row that is being read; the field begun and the fields before it are held last first. -/
structure Reader where
  place : Place := .rowStart
  /-- The line of the row. -/
  line : Nat := 1
  /-- The line feeds read since the row before ended. -/
  feeds : Nat := 0
  field : List Char := []
  fields : List (List Char) := []

namespace Reader

def isEnd (c : Char) : Bool := c = '\r' || c = '\n'

/-- Go on from a place. -/
def goto (r : Reader) (place : Place) : Reader := { r with place }

/-- Take a character into the field. -/
def keep (r : Reader) (place : Place) (c : Char) : Reader :=
  { r with place, field := c :: r.field }

def endField (r : Reader) : Reader :=
  { r with place := .fieldStart, field := [], fields := r.field.reverse :: r.fields }

def row (r : Reader) : Row := ⟨r.line, r.endField.fields.reverse⟩

def behind (r : Reader) : Reader := { line := r.line + r.feeds }

/-- Take a character outside quotes, at the start of a field, in it or behind its quotes. -/
def outside (r : Reader) (c : Char) : Reader := if c = ',' then r.endField else r.keep .plain c

/-- Count a character if it is a line feed. -/
def count (r : Reader) (c : Char) : Reader :=
  if c = '\n' then { r with feeds := r.feeds + 1 } else r

/-- Take one character, and give the row if the character ends it. -/
def next (r : Reader) (c : Char) : Reader × Option Row :=
  match r.place with
  | .quoted => (if c = '"' then r.goto .closing else r.keep .quoted c, none)
  | .rowStart =>
      if isEnd c then (r, none)
      else if c = '"' then (r.goto .quoted, none)
      else (r.outside c, none)
  | .fieldStart =>
      if isEnd c then (r.behind, some r.row)
      else if c = '"' then (r.goto .quoted, none)
      else (r.outside c, none)
  | .plain => if isEnd c then (r.behind, some r.row) else (r.outside c, none)
  | .closing =>
      if isEnd c then (r.behind, some r.row)
      else if c = '"' then (r.keep .quoted c, none)
      else (r.outside c, none)

/-- The rows of a text; at its end the row begun is one as well. -/
def rows (r : Reader) : List Char → List Row
  | [] => if r.place = .rowStart then [] else [r.row]
  | c :: rest =>
      match (r.count c).next c with
      | (r, some row) => row :: r.rows rest
      | (r, none) => r.rows rest

end Reader

/-- The rows of a text, which may begin with a byte order mark. -/
def rows (text : List Char) : List Row := Reader.rows {} (dropMark text)

end JarRemap.Text.Csv
