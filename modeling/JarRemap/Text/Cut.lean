/-!
# Cutting texts

Ways to take a text apart at a character or at a longer mark. Every function keeps all the
characters but the mark itself, so a text can be put together again from its parts.
-/

namespace JarRemap.Text

/-- The text before the first `c` and the text behind it. -/
def cut? (c : Char) : List Char → Option (List Char × List Char)
  | [] => none
  | x :: rest =>
      if x = c then some ([], rest)
      else (cut? c rest).map fun parts => (x :: parts.1, parts.2)

/-- The text before the last `c` and the text behind it. -/
def cutLast? (c : Char) (s : List Char) : Option (List Char × List Char) :=
  (cut? c s.reverse).map fun parts => (parts.2.reverse, parts.1.reverse)

/-- The text before the first occurrence of `mark` and the text behind it. -/
def cutAt? (mark : List Char) : List Char → Option (List Char × List Char)
  | [] => if mark.isEmpty then some ([], []) else none
  | x :: rest =>
      match mark.isPrefixOf? (x :: rest) with
      | some behind => some ([], behind)
      | none => (cutAt? mark rest).map fun parts => (x :: parts.1, parts.2)

def occurs (mark s : List Char) : Bool := (cutAt? mark s).isSome

/-- The parts between the separators, one more than there are separators. -/
def splitOn (c : Char) : List Char → List (List Char)
  | [] => [[]]
  | x :: rest =>
      if x = c then [] :: splitOn c rest else (splitOn c rest).modifyHead (x :: ·)

/-- The part behind the last character that satisfies `p`, or the whole text if none does. -/
def behindLast (p : Char → Bool) (s : List Char) : List Char :=
  (s.reverse.takeWhile fun c => !p c).reverse

/-- What follows `mark` at the start of the text. -/
def stripStart? (mark s : List Char) : Option (List Char) := mark.isPrefixOf? s

/-- What stands before `mark` at the end of the text. -/
def stripEnd? (mark s : List Char) : Option (List Char) :=
  (mark.reverse.isPrefixOf? s.reverse).map List.reverse

/-- Write `b` for every `a`. -/
def replace (a b : Char) (s : List Char) : List Char := s.map fun c => if c = a then b else c

end JarRemap.Text
