import JarRemap.Text.Slice
import JarRemap.Format.LineReader

/-!
# Reading lines by offsets and indices

The parsers of this directory take lines apart the way a program does that knows only offsets and
indices: a word is asked for by its index, the part of a line before a mark is cut off at the offset
of the mark, and a record read before is looked up where it was stored. None of this is safe by
itself, so their steps may crash.
-/

namespace JarRemap.Format.Bytewise

/-- Reads one line. -/
abbrev Step (σ : Type) := σ → List Char → Checked Fault (σ × List Record)

/-- Give an error the number of its line. -/
def onLine {α : Type} (number : Nat) (x : Checked Fault α) : Checked LineFault α :=
  x.mapError (Stop.map (LineFault.mk number))

/-- Read numbered lines in order. -/
def readLines {σ : Type} (step : Step σ) (state : σ) :
    List (Nat × List Char) → Checked LineFault (List Record)
  | [] => .ok []
  | (number, line) :: rest => do
      let (state, records) ← onLine number (step state line)
      let more ← readLines step state rest
      return records ++ more

/-- Go through numbered lines in order, for a format in which a line may need what was read. -/
def foldLines {σ : Type} (step : σ → List Char → Checked Fault σ) (state : σ) :
    List (Nat × List Char) → Checked LineFault σ
  | [] => .ok state
  | (number, line) :: rest => do
      let state ← onLine number (step state line)
      foldLines step state rest

/-- Part a qualified name into its owner and its own name, at the last slash. -/
def splitMember? {ε : Type} (word : List Char) : Checked ε (Option (List Char × List Char)) :=
  match Text.findLast? (· = '/') word with
  | none => return none
  | some slash => return some (← Text.upTo word slash, ← Text.behind word (slash + 1))

end JarRemap.Format.Bytewise
