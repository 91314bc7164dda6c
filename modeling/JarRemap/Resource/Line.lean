import JarRemap.Text.Blank
import JarRemap.Text.Lines
import JarRemap.Text.Utf8

/-!
# Lines of resource files

A line of a resource file is words, and perhaps a remark behind a number sign. A file is
renamed line by line; a line without words stays as it is, but for the way it ends.
-/

namespace JarRemap.Resource

/-- A line that is taken apart. -/
structure Line where
  number : Nat
  /-- The whole line. -/
  whole : List Char
  words : List (List Char)
  /-- The remark, with its number sign. -/
  remark : Option (List Char)
deriving DecidableEq, Repr

/-- Take a line apart. -/
def Line.ofText (number : Nat) (whole : List Char) : Line :=
  let remark := whole.dropWhile (· ≠ '#')
  ⟨number, whole, Text.words (whole.takeWhile (· ≠ '#')),
    if remark.isEmpty then none else some remark⟩

/-- The lines of a text. -/
def Line.all (text : List Char) : List Line :=
  (Text.numberedLines text).map fun (number, whole) => .ofText number whole

/-- A line of other words with the same remark, which stands behind a separator. -/
def Line.write (separator : Char) (content : List Char) (l : Line) : List Char :=
  content ++ (l.remark.elim [] (separator :: ·)) ++ ['\n']

/-- A line without words. -/
def Line.keep (l : Line) : List Char := l.whole ++ ['\n']

end JarRemap.Resource
