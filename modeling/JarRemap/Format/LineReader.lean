import JarRemap.Text.Blank
import JarRemap.Text.Lines
import JarRemap.Text.Numeral
import JarRemap.Record
import JarRemap.Format.Fault

/-!
# Reading line by line

Most formats are read one line at a time. A step takes what is known from the lines before and one
line, and gives what is known now and the records the line holds. The first fault ends the reading
and takes the number of its line.
-/

namespace JarRemap.Format

/-- Reads one line. -/
abbrev Step (σ : Type) := σ → List Char → Except Fault (σ × List Record)

/-- Read numbered lines in order. -/
def readLines {σ : Type} (step : Step σ) (state : σ) :
    List (Nat × List Char) → Except LineFault (List Record)
  | [] => .ok []
  | (number, line) :: rest => do
      let (state, records) ← (step state line).mapError (LineFault.mk number)
      let more ← readLines step state rest
      return records ++ more

/-- Go through numbered lines in order, for a format in which a line may change what was read. -/
def foldLines {σ : Type} (step : σ → List Char → Except Fault σ) (state : σ) :
    List (Nat × List Char) → Except LineFault σ
  | [] => .ok state
  | (number, line) :: rest => do
      let state ← (step state line).mapError (LineFault.mk number)
      foldLines step state rest

/-- Whether a line holds nothing, or only a remark behind a number sign. -/
def isRemark (line : List Char) : Bool :=
  match Text.trimStart line with
  | [] => true
  | c :: _ => c = '#'

def readIndex (kind : String) (word : List Char) : Except Fault UInt16 :=
  match Text.index? word with
  | some index => .ok index
  | none => .error (.invalidIndex kind (String.ofList word))

/-- A class with its names. -/
def typeRecord (names : List (List Char)) : Record := ⟨.type, names.map nameOrNone, none⟩

def fieldRecord (owner : String) (desc : Option (List Char)) (names : List (List Char)) : Record :=
  ⟨.field owner (desc.map String.ofList), names.map nameOrNone, none⟩

def methodRecord (owner : String) (desc : Option (List Char)) (names : List (List Char)) : Record :=
  ⟨.method owner (desc.map String.ofList), names.map nameOrNone, none⟩

end JarRemap.Format
