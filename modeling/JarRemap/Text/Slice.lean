/-!
# Slices by byte offsets

A text is cut at offsets that count the bytes of its encoding. A cut outside the text or inside of a
character, an index outside a list and a difference below zero end a program. A computation that may
come to this stops with a `Crash`, which is told apart from the errors that it answers with.
-/

namespace JarRemap

/-- What ends a program that leaves the bounds of its data. -/
inductive Crash where
  /-- A cut outside a text or inside of a character. -/
  | cut
  /-- An index outside a list. -/
  | index
  /-- A difference below zero. -/
  | underflow
deriving DecidableEq, Repr

/-- Why a computation stops. -/
inductive Stop (ε : Type) where
  | error (e : ε)
  | crash (c : Crash)
deriving DecidableEq, Repr

/-- Say more about an error. -/
def Stop.map {ε ε' : Type} (f : ε → ε') : Stop ε → Stop ε'
  | error e => error (f e)
  | crash c => crash c

/-- Computations that may crash. -/
abbrev Checked (ε : Type) := Except (Stop ε)

namespace Checked

variable {ε α : Type}

/-- Answer with an error. -/
def fail (e : ε) : Checked ε α := .error (.error e)

/-- A value that has to be there. -/
def need (c : Crash) : Option α → Checked ε α
  | some a => .ok a
  | none => .error (.crash c)

/-- A computation that cannot crash. -/
def lift (x : Except ε α) : Checked ε α := x.mapError Stop.error

/-- The element at an index. -/
def at_ (l : List α) (i : Nat) : Checked ε α := need .index l[i]?

/-- The elements from an index on. -/
def from_ (l : List α) (i : Nat) : Checked ε (List α) :=
  if i ≤ l.length then .ok (l.drop i) else .error (.crash .index)

/-- A difference of numbers. -/
def sub (a b : Nat) : Checked ε Nat := if b ≤ a then .ok (a - b) else .error (.crash .underflow)

end Checked

namespace Text

/-- How many bytes a text has. -/
def byteLength : List Char → Nat
  | [] => 0
  | c :: rest => c.utf8Size + byteLength rest

/-- The text before an offset and the text behind it, unless the offset is outside the text or inside
of a character. -/
def splitAt? : Nat → List Char → Option (List Char × List Char)
  | 0, s => some ([], s)
  | _ + 1, [] => none
  | n + 1, c :: rest =>
      if c.utf8Size ≤ n + 1 then
        (splitAt? (n + 1 - c.utf8Size) rest).map fun parts => (c :: parts.1, parts.2)
      else none

@[simp] theorem byteLength_nil : byteLength [] = 0 := rfl

@[simp] theorem byteLength_cons (c : Char) (s : List Char) :
    byteLength (c :: s) = c.utf8Size + byteLength s := rfl

/-- What is cut off before an offset has as many bytes as the offset says. -/
theorem byteLength_of_splitAt? {n : Nat} {s : List Char} {parts : List Char × List Char}
    (h : splitAt? n s = some parts) : byteLength parts.1 = n := by
  induction n, s using splitAt?.induct generalizing parts with
  | case1 s =>
    rw [splitAt?] at h
    obtain rfl := Option.some.inj h
    rfl
  | case2 n => cases h
  | case3 n c rest hfits ih =>
    rw [splitAt?, if_pos hfits] at h
    obtain ⟨others, hothers, rfl⟩ := Option.map_eq_some_iff.1 h
    rw [byteLength_cons, ih hothers]
    omega
  | case4 n c rest hfits =>
    rw [splitAt?, if_neg hfits] at h
    cases h

/-- The offset of the first character that satisfies `p`. -/
def find? (p : Char → Bool) : List Char → Option Nat
  | [] => none
  | c :: rest => if p c then some 0 else (find? p rest).map (c.utf8Size + ·)

/-- The offset of the first occurrence of `mark`. -/
def findMark? (mark : List Char) : List Char → Option Nat
  | [] => if mark.isEmpty then some 0 else none
  | c :: rest =>
      if mark.isPrefixOf (c :: rest) then some 0 else (findMark? mark rest).map (c.utf8Size + ·)

/-- The offset of the last character that satisfies `p`. -/
def findLast? (p : Char → Bool) : List Char → Option Nat
  | [] => none
  | c :: rest =>
      match findLast? p rest with
      | some offset => some (c.utf8Size + offset)
      | none => if p c then some 0 else none

section Slices

variable {ε : Type}

/-- The text before an offset. -/
def upTo (s : List Char) (offset : Nat) : Checked ε (List Char) :=
  Checked.need .cut ((splitAt? offset s).map Prod.fst)

/-- The text from an offset on. -/
def behind (s : List Char) (offset : Nat) : Checked ε (List Char) :=
  Checked.need .cut ((splitAt? offset s).map Prod.snd)

/-- The text between two offsets. -/
def between (s : List Char) (first last : Nat) : Checked ε (List Char) := do
  behind (← upTo s last) first

end Slices

end Text

end JarRemap
