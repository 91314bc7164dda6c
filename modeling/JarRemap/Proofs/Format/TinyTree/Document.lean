import JarRemap.Format.TinyTree
import JarRemap.Proofs.Text.Words

/-!
# Documents of the nested tiny format

A document as a tree: namespaces, and classes with their members, these with their parameters and
local variables, in any order, and with comments between them. It is written row by row, each below
what it belongs to, and stands for one record for every class, member and parameter.
-/

namespace JarRemap.Format.TinyTree

section Columns

/-- The characters that end a column or a line. -/
def isBreak (c : Char) : Bool := c = '\t' || c = '\n' || c = '\r'

/-- A text that can stand in a column as it is. -/
structure Column where
  text : String
  unbroken : ∀ c ∈ text.toList, isBreak c = false

def escapeChar : Char → List Char
  | '\\' => ['\\', '\\']
  | '\n' => ['\\', 'n']
  | '\r' => ['\\', 'r']
  | '\t' => ['\\', 't']
  | '\x00' => ['\\', '0']
  | c => [c]

/-- Write a backslash for characters that end a column or a line, and for itself. -/
def escape (s : List Char) : List Char := s.flatMap escapeChar

theorem unescape_cons {c : Char} (h : c ≠ '\\') (rest : List Char) :
    unescape (c :: rest) = c :: unescape rest := by
  rw [unescape]
  rintro _ _ rfl
  exact absurd rfl h

/-- A character is written behind a backslash, or as it is. -/
theorem escapeChar_eq (c : Char) :
    (∃ x, escapeChar c = ['\\', x] ∧ isBreak x = false ∧
      ∀ rest, unescape ('\\' :: x :: rest) = c :: unescape rest) ∨
    (escapeChar c = [c] ∧ isBreak c = false ∧ c ≠ '\\') := by
  unfold escapeChar
  split
  case h_6 hbackslash hfeed hreturn htab _ =>
    have hbreak : isBreak c = false := by
      simp only [isBreak, Bool.or_eq_false_iff, decide_eq_false_iff_not]
      exact ⟨⟨htab, hfeed⟩, hreturn⟩
    exact .inr ⟨rfl, hbreak, hbackslash⟩
  all_goals exact .inl ⟨_, rfl, rfl, fun _ => rfl⟩

/-- Every text is read back from its escapes. -/
theorem unescape_escape (s : List Char) : unescape (escape s) = s := by
  induction s with
  | nil => rfl
  | cons c s ih =>
    have hcons : escape (c :: s) = escapeChar c ++ escape s := rfl
    rcases escapeChar_eq c with ⟨x, hx, -, hread⟩ | ⟨hc, -, hbackslash⟩
    · rw [hcons, hx, List.cons_append, List.singleton_append, hread, ih]
    · rw [hcons, hc, List.singleton_append, unescape_cons hbackslash, ih]

theorem isBreak_of_mem_escape {s : List Char} {x : Char} (h : x ∈ escape s) :
    isBreak x = false := by
  obtain ⟨c, -, hx⟩ := List.mem_flatMap.1 h
  rcases escapeChar_eq c with ⟨y, hy, hbreak, -⟩ | ⟨hc, hbreak, -⟩
  · rw [hy] at hx
    rcases List.mem_pair.1 hx with rfl | rfl
    · rfl
    · exact hbreak
  · rw [hc] at hx
    rwa [List.mem_singleton.1 hx]

namespace Column

def empty : Column := ⟨"", fun _ h => by cases h⟩

def escaped (text : String) : Column where
  text := String.ofList (escape text.toList)
  unbroken _ hc := isBreak_of_mem_escape (String.toList_ofList ▸ hc)

def ofIndex (index : UInt16) : Column where
  text := String.ofList (Text.decimal index.toNat)
  unbroken c hc := by
    have hdigit := Text.isDigit_of_mem_decimal (String.toList_ofList ▸ hc)
    have hne : c ≠ '\t' ∧ c ≠ '\n' ∧ c ≠ '\r' := by
      refine ⟨?_, ?_, ?_⟩ <;> rintro rfl <;> exact absurd hdigit (by decide)
    simp [isBreak, hne]

end Column

end Columns

section Trees

/-- A name. Where names are not escaped it has to be free of tabs and line ends. -/
structure Name (escaped : Bool) where
  text : String
  nonempty : text ≠ ""
  plain : escaped = false → ∀ c ∈ text.toList, isBreak c = false

/-- A name or none for each namespace. -/
abbrev Names (escaped : Bool) (width : Nat) := Vector (Option (Name escaped)) width

variable {escaped : Bool} {width : Nat}

def Names.texts (names : Names escaped width) : List (Option String) :=
  names.toList.map (Option.map Name.text)

/-- The name in the first namespace, by which an element is keyed. -/
def Names.key? (names : Names escaped width) : Option String := names.texts.head?.join

/-- A parameter of a method; of its comments the last one counts. -/
structure Parameter (escaped : Bool) (width : Nat) where
  index : UInt16
  names : Names escaped width
  comments : List String

/-- A local variable, with its index, the offset that it begins at, and other columns. -/
structure LocalVariable (escaped : Bool) (width : Nat) where
  place : List Column
  names : Names escaped width
  comments : List String

/-- What can stand below a method. -/
inductive MethodItem (escaped : Bool) (width : Nat) where
  | comment (text : String)
  | parameter (p : Parameter escaped width)
  | localVariable (v : LocalVariable escaped width)

def MethodItem.comment? : MethodItem escaped width → Option String
  | .comment text => some text
  | _ => none

/-- A field; of its comments the last one counts. -/
structure Field (escaped : Bool) (width : Nat) where
  desc : Column
  names : Names escaped width
  comments : List String

/-- A method. Without a name in the first namespace it has no more than comments. -/
structure Method (escaped : Bool) (width : Nat) where
  desc : Column
  names : Names escaped width
  items : List (MethodItem escaped width)
  keyed : names.key? = none → ∀ item ∈ items, item.comment?.isSome

/-- What can stand below a class. -/
inductive ClassItem (escaped : Bool) (width : Nat) where
  | comment (text : String)
  | field (f : Field escaped width)
  | method (m : Method escaped width)

def ClassItem.comment? : ClassItem escaped width → Option String
  | .comment text => some text
  | _ => none

/-- A class. Without a name in the first namespace it has no more than comments. -/
structure Class (escaped : Bool) (width : Nat) where
  names : Names escaped width
  items : List (ClassItem escaped width)
  keyed : names.key? = none → ∀ item ∈ items, item.comment?.isSome

structure Document where
  /-- Whether the names are escaped; comments always are. -/
  escaped : Bool
  key : Column
  others : List Column
  classes : List (Class escaped (others.length + 1))

end Trees

variable {escaped : Bool} {width : Nat}

section Rows

/-- A line: what it holds, at a depth, and its other columns. -/
structure Row where
  depth : Nat
  kind : Char
  columns : List Column
  visible : Text.isBlank kind = false := by decide

/-- Columns behind a tab each. -/
def behindTabs (columns : List Column) : List Char :=
  columns.flatMap fun column => '\t' :: column.text.toList

def Row.text (r : Row) : List Char :=
  List.replicate r.depth '\t' ++ r.kind :: behindTabs r.columns

def Row.comment (depth : Nat) (text : String) : Row := ⟨depth, 'c', [.escaped text], by decide⟩

def Name.column (name : Name escaped) : Column :=
  if h : escaped = true then .escaped name.text
  else ⟨name.text, name.plain (Bool.eq_false_iff.2 h)⟩

/-- A missing name is an empty column. -/
def nameColumn : Option (Name escaped) → Column
  | none => .empty
  | some name => name.column

def Names.columns (names : Names escaped width) : List Column := names.toList.map nameColumn

def Parameter.row (p : Parameter escaped width) : Row :=
  ⟨2, 'p', .ofIndex p.index :: p.names.columns, by decide⟩

def LocalVariable.row (v : LocalVariable escaped width) : Row :=
  ⟨2, 'v', v.place ++ v.names.columns, by decide⟩

def MethodItem.rows : MethodItem escaped width → List Row
  | .comment text => [.comment 2 text]
  | .parameter p => p.row :: p.comments.map (Row.comment 3)
  | .localVariable v => v.row :: v.comments.map (Row.comment 3)

def Field.row (f : Field escaped width) : Row :=
  ⟨1, 'f', f.desc :: f.names.columns, by decide⟩

def Method.row (m : Method escaped width) : Row :=
  ⟨1, 'm', m.desc :: m.names.columns, by decide⟩

def ClassItem.rows : ClassItem escaped width → List Row
  | .comment text => [.comment 1 text]
  | .field f => f.row :: f.comments.map (Row.comment 2)
  | .method m => m.row :: m.items.flatMap MethodItem.rows

def Class.row (c : Class escaped width) : Row := ⟨0, 'c', c.names.columns, by decide⟩

def Class.rows (c : Class escaped width) : List Row := c.row :: c.items.flatMap ClassItem.rows

namespace Document

def rows (d : Document) : List Row := d.classes.flatMap Class.rows

/-- The first line: the format with its version, and the namespaces. -/
def header (d : Document) : List Char := "tiny\t2\t0".toList ++ behindTabs (d.key :: d.others)

def properties (d : Document) : List (List Char) :=
  if d.escaped then ["\tescaped-names".toList] else []

def lines (d : Document) : List (List Char) :=
  d.header :: (d.properties ++ d.rows.map Row.text)

/-- The text of a document. -/
def print (d : Document) : List Char := d.lines.flatMap fun line => line ++ ['\n']

example :
    let key : Column := ⟨"official", by simp [isBreak]⟩
    let other : Column := ⟨"named", by simp [isBreak]⟩
    let a : Name true := ⟨"a", by decide, by decide⟩
    let field : Field true 2 := ⟨⟨"I", by simp [isBreak]⟩, #v[some a, none], []⟩
    print ⟨true, key, [other], [⟨#v[some a, some a], [.comment "b\nc", .field field], by decide⟩]⟩ =
      ("tiny\t2\t0\tofficial\tnamed\n\tescaped-names\n" ++
        "c\ta\ta\n\tc\tb\\nc\n\tf\tI\ta\t\n").toList := by
  decide

end Document

end Rows

section Records

def Parameter.record (owner method desc : String) (p : Parameter escaped width) : Record :=
  ⟨.param owner method (some desc) p.index, p.names.texts, p.comments.getLast?⟩

def MethodItem.records (owner method desc : String) : MethodItem escaped width → List Record
  | .parameter p => [p.record owner method desc]
  | _ => []

def Field.record (owner : String) (f : Field escaped width) : Record :=
  ⟨.field owner (some f.desc.text), f.names.texts, f.comments.getLast?⟩

/-- A method and its parameters. Local variables are no records. -/
def Method.records (owner : String) (m : Method escaped width) : List Record :=
  ⟨.method owner (some m.desc.text), m.names.texts,
    (m.items.filterMap MethodItem.comment?).getLast?⟩ ::
      m.items.flatMap (MethodItem.records owner (m.names.key?.getD "") m.desc.text)

def ClassItem.records (owner : String) : ClassItem escaped width → List Record
  | .comment _ => []
  | .field f => [f.record owner]
  | .method m => m.records owner

/-- A class and its members. -/
def Class.records (c : Class escaped width) : List Record :=
  ⟨.type, c.names.texts, (c.items.filterMap ClassItem.comment?).getLast?⟩ ::
    c.items.flatMap (ClassItem.records (c.names.key?.getD ""))

/-- What a document says. -/
def Document.source (d : Document) : Source :=
  let others := d.others.map Column.text
  ⟨d.key.text, others, d.key.text :: others, d.classes.flatMap Class.records⟩

end Records

end JarRemap.Format.TinyTree
