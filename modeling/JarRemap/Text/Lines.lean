/-!
# Lines

A line ends at a line feed, with one carriage return before it taken away. Text behind the last
line feed is a line of its own only if there is any, and keeps a carriage return at its end.
-/

namespace JarRemap.Text

/-- Take away one carriage return at the front of a reversed line. -/
def dropReturn : List Char → List Char
  | '\r' :: rest => rest
  | s => s

/-- The lines of a text; `line` holds the line being read, last character first. -/
def linesFrom (line : List Char) : List Char → List (List Char)
  | [] => if line.isEmpty then [] else [line.reverse]
  | c :: rest =>
      if c = '\n' then (dropReturn line).reverse :: linesFrom [] rest
      else linesFrom (c :: line) rest

/-- The lines of a text, without their ends. -/
def lines (s : List Char) : List (List Char) := linesFrom [] s

theorem linesFrom_append {text : List Char} (h : '\n' ∉ text) (line rest : List Char) :
    linesFrom line (text ++ '\n' :: rest) =
      (dropReturn (text.reverse ++ line)).reverse :: linesFrom [] rest := by
  induction text generalizing line with
  | nil => simp [linesFrom]
  | cons c text ih =>
    have hc : c ≠ '\n' := fun e => h (e ▸ List.mem_cons_self)
    have htext : '\n' ∉ text := fun m => h (List.mem_cons_of_mem c m)
    simp [linesFrom, hc, ih htext]

/-- A line that ends in a carriage return and a line feed is read without them. -/
theorem lines_append_return {line : List Char} (h : '\n' ∉ line) (rest : List Char) :
    lines (line ++ '\r' :: '\n' :: rest) = line :: lines rest := by
  have hreturn : '\n' ∉ line ++ ['\r'] := by simpa using h
  have happend := linesFrom_append hreturn [] rest
  rw [List.append_assoc, List.singleton_append] at happend
  rw [lines, lines, happend]
  simp [dropReturn]

/-- The lines of a text with their numbers, the first being line 1. -/
def numberedLines (s : List Char) : List (Nat × List Char) :=
  (lines s).zipIdx.map fun item => (item.2 + 1, item.1)

/-- The depth of a line: its leading tabs and groups of four leading spaces. A group may be
interrupted by tabs; `spaces` counts the spaces of the group begun. -/
def depthFrom (spaces : Nat) : List Char → Nat
  | '\t' :: rest => depthFrom spaces rest + 1
  | ' ' :: rest => if spaces = 3 then depthFrom 0 rest + 1 else depthFrom (spaces + 1) rest
  | _ => 0

/-- The depth of a line: its leading tabs and groups of four leading spaces. -/
def depth (line : List Char) : Nat := depthFrom 0 line

end JarRemap.Text
