import JarRemap.Text.Csv
import JarRemap.Text.Numeral
import JarRemap.Format.Fault

/-!
# Tables under a header

The first row of a table names its columns. A row below must reach as far as the header, and every
column that a reader asks for may be named only once.
-/

namespace JarRemap.Format.Table

open Text.Csv (Row)

/-- The fields of a row, each with the name of its column. -/
abbrev Cells := List (List Char × List Char)

namespace Cells

/-- The field of a column, or nothing inside if there is no such column; no value at all if two
columns have the name. -/
def find? (cells : Cells) (column : String) : Option (Option (List Char)) :=
  match cells.filter fun cell => cell.1 = column.toList with
  | [] => some none
  | [cell] => some (some cell.2)
  | _ => none

/-- The field of a column that has to be there. -/
def text? (cells : Cells) (column : String) : Option (List Char) := (find? cells column).join

/-- The field of a column that may be missing, which is the same as an empty field. -/
def textOrEmpty? (cells : Cells) (column : String) : Option (List Char) :=
  (find? cells column).map fun field => field.getD []

/-- A number of 32 bits, in base sixteen if it begins with `0x`. -/
def numeral? (s : List Char) : Option Nat :=
  match s with
  | '0' :: 'x' :: rest => Text.numeral? 16 UInt32.size rest
  | _ => Text.numeral? 10 UInt32.size s

def number? (cells : Cells) (column : String) : Option Nat := (cells.text? column).bind numeral?

end Cells

/-- The cells of a row, if there is one for each column. -/
def cells? (header : List (List Char)) (row : Row) : Option Cells :=
  if row.fields.length < header.length then none else some (header.zip row.fields)

/-- What a reader makes of the rows below a header. -/
def tableRows {α : Type} (format : Format) (header : List (List Char)) (read : Cells → Option α) :
    List Row → Except FormatError (List α)
  | [] => .ok []
  | row :: rest =>
      match (cells? header row).bind read with
      | none => .error (.malformedRow format row.line)
      | some a => (tableRows format header read rest).map (a :: ·)

/-- What a reader makes of the rows of a table. -/
def read {α : Type} (format : Format) (reader : Cells → Option α) (text : List Char) :
    Except FormatError (List α) :=
  match Text.Csv.rows text with
  | [] => .ok []
  | header :: rows => tableRows format header.fields reader rows

end JarRemap.Format.Table
