import JarRemap.Format.Enigma
import JarRemap.Proofs.Text.Words

/-!
# Forests of classes

What the nested class format is written from: classes inside of classes, to any depth, and between
them the fields and methods of a class in any order. A class is written by its own names, what
belongs to it one level deeper. The records that a forest stands for are put together here from the
classes around an element, without regard to how a text is read.
-/

namespace JarRemap.Format.Enigma

section Trees

/-- A text that can stand as one word: it begins no remark, and is no access modifier. -/
structure Token where
  text : String
  isWord : Text.IsWord text.toList
  unmarked : '#' ∉ text.toList
  unmodified : "ACC:".toList.isPrefixOf text.toList = false

/-- A line of a comment. It may end in blanks, but begins with none. -/
structure CommentLine where
  text : String
  unbroken : '\n' ∉ text.toList ∧ text.toList.getLast? ≠ some '\r'
  trimmed : Text.trimStart text.toList = text.toList

/-- A class by its own names. -/
structure Heading where
  simple : Token
  readable : Option Token
  comments : List CommentLine

structure Member where
  name : Token
  readable : Option Token
  desc : Token
  comments : List CommentLine

structure Argument where
  index : UInt16
  name : Token
  comments : List CommentLine

/-- What belongs to a class, from the first to the last. -/
inductive Items where
  | nil
  | field (f : Member) (rest : Items)
  | method (m : Member) (arguments : List Argument) (rest : Items)
  | type (c : Heading) (inside rest : Items)

/-- The classes that are inside of no other, each with what belongs to it. -/
abbrev Forest := List (Heading × Items)

end Trees

section Lines

namespace Token

def ofIndex (index : UInt16) : Token where
  text := String.ofList (Text.decimal index.toNat)
  isWord := by
    rw [String.toList_ofList]
    exact Text.isWord_decimal _
  unmarked h := by
    rw [String.toList_ofList] at h
    exact absurd (Text.isDigit_of_mem_decimal h) (by decide)
  unmodified := by
    rw [String.toList_ofList, Bool.eq_false_iff]
    intro h
    obtain ⟨rest, hrest⟩ := List.isPrefixOf_iff_prefix.1 h
    rw [String.toList_ofList] at hrest
    have hletter : 'A' ∈ Text.decimal index.toNat := hrest ▸ List.mem_cons_self
    exact absurd (Text.isDigit_of_mem_decimal hletter) (by decide)

def type : Token := ⟨"CLASS", by decide, by decide, by decide⟩

def field : Token := ⟨"FIELD", by decide, by decide, by decide⟩

def method : Token := ⟨"METHOD", by decide, by decide, by decide⟩

def argument : Token := ⟨"ARG", by decide, by decide, by decide⟩

end Token

/-- A line with words at a depth. -/
def line (depth : Nat) (words : List Token) : List Char :=
  List.replicate depth '\t' ++ [' '].intercalate (words.map fun word => word.text.toList)

def CommentLine.line (depth : Nat) (c : CommentLine) : List Char :=
  List.replicate depth '\t' ++ "COMMENT".toList ++ ' ' :: c.text.toList

/-- The line of an element, and its comment one level deeper. -/
def described (depth : Nat) (words : List Token) (comments : List CommentLine) : List (List Char) :=
  line depth words :: comments.map (CommentLine.line (depth + 1))

def Heading.lines (depth : Nat) (c : Heading) : List (List Char) :=
  described depth (.type :: c.simple :: c.readable.toList) c.comments

def Member.lines (depth : Nat) (kind : Token) (m : Member) : List (List Char) :=
  described depth (kind :: m.name :: (m.readable.toList ++ [m.desc])) m.comments

def Argument.lines (depth : Nat) (a : Argument) : List (List Char) :=
  described depth [.argument, .ofIndex a.index, a.name] a.comments

def Items.lines (depth : Nat) : Items → List (List Char)
  | .nil => []
  | .field f rest => f.lines depth .field ++ rest.lines depth
  | .method m arguments rest =>
      m.lines depth .method ++ arguments.flatMap (Argument.lines (depth + 1)) ++ rest.lines depth
  | .type c inside rest => c.lines depth ++ inside.lines (depth + 1) ++ rest.lines depth

namespace Forest

def lines (forest : Forest) : List (List Char) :=
  forest.flatMap fun tree => tree.1.lines 0 ++ tree.2.lines 1

/-- The text of a forest. -/
def print (forest : Forest) : List Char := forest.lines.flatMap fun line => line ++ ['\n']

example :
    let a : Token := ⟨"a", by decide, by decide, by decide⟩
    let desc : Token := ⟨"(I)V", by decide, by decide, by decide⟩
    print [(⟨a, none, [⟨"of #1", by decide, by decide⟩]⟩,
      .method ⟨a, none, desc, []⟩ [⟨1, a, []⟩] (.type ⟨a, some a, []⟩ .nil .nil))] =
      "CLASS a\n\tCOMMENT of #1\n\tMETHOD a (I)V\n\t\tARG 1 a\n\tCLASS a a\n".toList := by
  decide

end Forest

end Lines

section Records

/-- The comment of an element, or none without a line of it. -/
def comment? (comments : List CommentLine) : Option String :=
  if comments.isEmpty then none else some ("\n".intercalate (comments.map CommentLine.text))

/-- The full official name of a class: the simple names from the outermost class inwards. The
innermost class is the first. -/
def official (chain : List Heading) : String :=
  "$".intercalate (chain.reverse.map fun c => c.simple.text)

/-- The full readable name of a class. A name with a slash is full, and so is that of an outermost
class. Other names follow that of the class around, which goes by its official name if it has no
readable one; but then a class without a readable name of its own has none either. -/
def named? : List Heading → Option String
  | [] => none
  | [c] => c.readable.map Token.text
  | c :: around =>
      match c.readable with
      | some name =>
          some (if '/' ∈ name.text.toList then name.text
            else (named? around).getD (official around) ++ "$" ++ name.text)
      | none => (named? around).map fun outer => outer ++ "$" ++ c.simple.text

/-- A class inside of others, the innermost first. -/
def Heading.record (around : List Heading) (c : Heading) : Record :=
  ⟨.type, [some (official (c :: around)), named? (c :: around)], comment? c.comments⟩

def Member.names (m : Member) : List (Option String) :=
  [some m.name.text, m.readable.map Token.text]

def Member.fieldRecord (owner : String) (f : Member) : Record :=
  ⟨.field owner (some f.desc.text), f.names, comment? f.comments⟩

def Member.methodRecord (owner : String) (m : Member) : Record :=
  ⟨.method owner (some m.desc.text), m.names, comment? m.comments⟩

def Argument.record (owner : String) (m : Member) (a : Argument) : Record :=
  ⟨.param owner m.name.text (some m.desc.text) a.index, [none, some a.name.text],
    comment? a.comments⟩

/-- What belongs to the innermost of some classes. -/
def Items.records (around : List Heading) : Items → List Record
  | .nil => []
  | .field f rest => f.fieldRecord (official around) :: rest.records around
  | .method m arguments rest =>
      m.methodRecord (official around) ::
        (arguments.map (Argument.record (official around) m) ++ rest.records around)
  | .type c inside rest =>
      c.record around :: (inside.records (c :: around) ++ rest.records around)

namespace Forest

def records (forest : Forest) : List Record :=
  forest.flatMap fun tree => tree.1.record [] :: tree.2.records [tree.1]

/-- What a forest says. -/
def source (forest : Forest) : Source :=
  ⟨Namespace.official, [Namespace.readable], [Namespace.official, Namespace.readable],
    forest.records⟩

end Forest

end Records

end JarRemap.Format.Enigma
