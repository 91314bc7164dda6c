import JarRemap.Format.Proguard
import JarRemap.Proofs.Format.WordLine
import JarRemap.Proofs.Text.Split

/-!
# What an obfuscation log says

The names and types of a log, and then the log itself, each with its text.
-/

/-!
## Names and types of an obfuscation log

Names as a log writes them, with dots between the parts of the name of a class, and the types of
Java with their descriptors. The descriptor of a type is read from the type as it is written.
-/

namespace JarRemap.Format.Proguard

section Names

/-- The characters that part a line of a log, blanks apart. -/
def marks : List Char := ['(', ')', ':', ',', '[', '#']

def Unmarked (s : List Char) : Prop := ∀ c ∈ s, c ∉ marks

instance (s : List Char) : Decidable (Unmarked s) :=
  decidable_of_iff (s.all (fun c => c ∉ marks) = true) (by simp [Unmarked])

/-- A text without blanks, marks and dots. -/
def IsPart (s : List Char) : Prop := ∀ c ∈ s, Text.isBlank c = false ∧ c ∉ marks ∧ c ≠ '.'

instance (s : List Char) : Decidable (IsPart s) :=
  decidable_of_iff (s.all (fun c => Text.isBlank c = false ∧ c ∉ marks ∧ c ≠ '.') = true)
    (by simp [IsPart])

/-- A name that stands in a log as it is. -/
structure Name extends Word where
  unmarked : Unmarked text.toList

/-- The name of a class, in the parts that a log writes dots between. -/
structure TypeName where
  parts : List String
  nonempty : ".".intercalate parts ≠ ""
  plain : ∀ part ∈ parts, IsPart part.toList

theorem mem_intercalate {mark c : Char} {ls : List (List Char)} (h : c ∈ [mark].intercalate ls) :
    c = mark ∨ ∃ l ∈ ls, c ∈ l := by
  by_contra hnone
  rw [not_or] at hnone
  refine Text.not_mem_intercalate hnone.1 (fun l hl hc => hnone.2 ⟨l, hl, hc⟩) h

namespace TypeName

def slashed (n : TypeName) : String := "/".intercalate n.parts

theorem mem_dotted {n : TypeName} {c : Char} (h : c ∈ (".".intercalate n.parts).toList) :
    Text.isBlank c = false ∧ c ∉ marks := by
  rw [String.toList_intercalate] at h
  rcases mem_intercalate h with rfl | ⟨part, hpart, hc⟩
  · decide
  · obtain ⟨text, htext, rfl⟩ := List.mem_map.1 hpart
    obtain ⟨hblank, hmark, -⟩ := n.plain text htext c hc
    exact ⟨hblank, hmark⟩

/-- The name as a log writes it. -/
def dotted (n : TypeName) : Name where
  text := ".".intercalate n.parts
  isWord := ⟨fun h => n.nonempty (String.toList_eq_nil_iff.1 h), fun _ hc => (mem_dotted hc).1⟩
  unmarked _ hc := (mem_dotted hc).2

end TypeName

end Names

section Types

inductive Primitive where
  | byte
  | char
  | double
  | float
  | int
  | long
  | short
  | boolean

def Primitive.keyword : Primitive → String
  | byte => "byte"
  | char => "char"
  | double => "double"
  | float => "float"
  | int => "int"
  | long => "long"
  | short => "short"
  | boolean => "boolean"

def Primitive.letter : Primitive → Char
  | byte => 'B'
  | char => 'C'
  | double => 'D'
  | float => 'F'
  | int => 'I'
  | long => 'J'
  | short => 'S'
  | boolean => 'Z'

/-- The words that are types, but no classes. -/
def keywords : List String :=
  ["byte", "char", "double", "float", "int", "long", "short", "boolean", "void"]

/-- A text that does not begin with a digit. -/
def Unnumbered (s : List Char) : Prop := (s.head?.map isDigit).getD false = false

instance (s : List Char) : Decidable (Unnumbered s) := inferInstanceAs (Decidable (_ = _))

/-- A class whose name can stand for a type. -/
structure ClassType extends TypeName where
  unreserved : toTypeName.dotted.text ∉ keywords
  unnumbered : Unnumbered toTypeName.dotted.text.toList

/-- The type of the elements of an array, or of a value that is none. -/
inductive ElementType where
  | primitive (p : Primitive)
  | type (c : ClassType)

/-- The type of a value, with the dimensions of an array. -/
structure ValueType where
  element : ElementType
  dimensions : Nat

/-- What a method returns: nothing, or a value. -/
abbrev ReturnType := Option ValueType

end Types

section Texts

def ElementType.text : ElementType → List Char
  | primitive p => p.keyword.toList
  | type c => c.dotted.chars

def ValueType.text (t : ValueType) : List Char :=
  t.element.text ++ (List.replicate t.dimensions ['[', ']']).flatten

def ReturnType.text : ReturnType → List Char
  | none => "void".toList
  | some t => t.text

end Texts

section Descriptors

def ElementType.descriptor : ElementType → List Char
  | primitive p => [p.letter]
  | type c => 'L' :: c.slashed.toList ++ [';']

def ValueType.descriptor (t : ValueType) : List Char :=
  List.replicate t.dimensions '[' ++ t.element.descriptor

def ReturnType.descriptor : ReturnType → List Char
  | none => ['V']
  | some t => t.descriptor

/-- The descriptor of a method. -/
def methodDescriptor (arguments : List ValueType) (returned : ReturnType) : List Char :=
  '(' :: arguments.flatMap ValueType.descriptor ++ ')' :: returned.descriptor

theorem replace_dotted (n : TypeName) : Text.replace '.' '/' n.dotted.chars = n.slashed.toList := by
  have hparts : ∀ part ∈ n.parts.map String.toList, '.' ∉ part := by
    intro part hpart hdot
    obtain ⟨text, htext, rfl⟩ := List.mem_map.1 hpart
    exact (n.plain text htext '.' hdot).2.2 rfl
  have hdotted : n.dotted.chars = ['.'].intercalate (n.parts.map String.toList) :=
    String.toList_intercalate
  rw [hdotted, Text.replace_intercalate hparts, TypeName.slashed, String.toList_intercalate]
  rfl

theorem baseDescriptor_of_not_mem {name : List Char} (h : String.ofList name ∉ keywords) :
    JavaType.baseDescriptor name = 'L' :: Text.replace '.' '/' name ++ [';'] := by
  unfold JavaType.baseDescriptor
  split
  case h_10 => rfl
  all_goals
    next hname =>
    rw [hname] at h
    exact absurd (by decide) h

theorem ElementType.baseDescriptor_text (t : ElementType) :
    JavaType.baseDescriptor t.text = t.descriptor := by
  cases t with
  | primitive p => cases p <;> rfl
  | type c =>
    have hname : String.ofList c.dotted.chars ∉ keywords := by
      rw [Word.ofList_chars]
      exact c.unreserved
    rw [text, baseDescriptor_of_not_mem hname, replace_dotted]
    rfl

theorem ElementType.mem_text {t : ElementType} {c : Char} (h : c ∈ t.text) :
    Text.isBlank c = false ∧ c ∉ marks := by
  cases t with
  | primitive p =>
    have hkeyword : Text.IsWord p.keyword.toList ∧ Unmarked p.keyword.toList := by
      cases p <;> decide
    exact ⟨hkeyword.1.2 c h, hkeyword.2 c h⟩
  | type name => exact ⟨name.dotted.isWord.2 c h, name.dotted.unmarked c h⟩

theorem ElementType.not_mem_text (t : ElementType) {c : Char} (h : c ∈ marks) : c ∉ t.text :=
  fun hc => (mem_text hc).2 h

/-- Each pair of brackets behind the elements is a dimension. -/
theorem ValueType.reversedDescriptor_text (t : ValueType) :
    JavaType.reversedDescriptor t.text.reverse = t.descriptor := by
  obtain ⟨element, dimensions⟩ := t
  rw [text, descriptor]
  induction dimensions with
  | zero =>
    have hpair : ∀ rest, element.text.reverse ≠ ']' :: '[' :: rest := by
      intro rest hrest
      refine element.not_mem_text (show '[' ∈ marks by decide) ?_
      rw [← List.mem_reverse, hrest]
      simp
    rw [List.replicate_zero, List.flatten_nil, List.append_nil, JavaType.reversedDescriptor,
      List.reverse_reverse, element.baseDescriptor_text]
    · rfl
    · exact hpair
  | succ n ih =>
    have hreverse : (element.text ++ (List.replicate (n + 1) ['[', ']']).flatten).reverse =
        ']' :: '[' :: (element.text ++ (List.replicate n ['[', ']']).flatten).reverse := by
      rw [List.replicate_succ', List.flatten_append]
      simp
    rw [hreverse, JavaType.reversedDescriptor, ih]
    rfl

theorem ValueType.mem_text {t : ValueType} {c : Char} (h : c ∈ t.text) :
    Text.isBlank c = false ∧ (c ∈ marks → c = '[') := by
  rw [text, List.mem_append, List.mem_flatten] at h
  rcases h with h | ⟨pair, hpair, hc⟩
  · obtain ⟨hblank, hmark⟩ := ElementType.mem_text h
    exact ⟨hblank, fun hc => absurd hc hmark⟩
  · rw [List.eq_of_mem_replicate hpair] at hc
    rcases List.mem_pair.1 hc with rfl | rfl <;> decide

theorem ElementType.text_ne_nil (t : ElementType) : t.text ≠ [] := by
  cases t with
  | primitive p => cases p <;> decide
  | type c => exact c.dotted.chars_ne_nil

theorem ValueType.isWord_text (t : ValueType) : Text.IsWord t.text :=
  ⟨List.append_ne_nil_of_left_ne_nil t.element.text_ne_nil _, fun _ hc => (mem_text hc).1⟩

theorem ValueType.descriptorOf_text (t : ValueType) :
    JavaType.descriptorOf t.text = t.descriptor := by
  rw [JavaType.descriptorOf, Text.trim_of_isWord t.isWord_text, t.reversedDescriptor_text]

theorem ReturnType.isWord_text (t : ReturnType) : Text.IsWord t.text := by
  cases t with
  | none => decide
  | some t => exact t.isWord_text

theorem ReturnType.descriptorOf_text (t : ReturnType) :
    JavaType.descriptorOf t.text = t.descriptor := by
  cases t with
  | none => decide
  | some t => exact t.descriptorOf_text

/-- The types between parentheses, with commas between them. -/
def argumentsText (arguments : List ValueType) : List Char :=
  [','].intercalate (arguments.map ValueType.text)

theorem mem_argumentsText {arguments : List ValueType} {c : Char}
    (h : c ∈ argumentsText arguments) : Text.isBlank c = false ∧ c ≠ ')' := by
  rcases mem_intercalate h with rfl | ⟨text, htext, hc⟩
  · decide
  · obtain ⟨t, -, rfl⟩ := List.mem_map.1 htext
    obtain ⟨hblank, hmark⟩ := ValueType.mem_text hc
    refine ⟨hblank, ?_⟩
    rintro rfl
    exact absurd (hmark (by decide)) (by decide)

theorem methodDescriptorOf_text (arguments : List ValueType) (returned : ReturnType) :
    JavaType.methodDescriptorOf (argumentsText arguments) returned.text =
      methodDescriptor arguments returned := by
  have hparts : ((Text.splitOn ',' (argumentsText arguments)).map Text.trim).filter
      (fun s => !s.isEmpty) = arguments.map ValueType.text := by
    cases arguments with
    | nil => rfl
    | cons t arguments =>
      have hcomma : ∀ part ∈ (t :: arguments).map ValueType.text, ',' ∉ part := by
        intro part hpart hc
        obtain ⟨type, -, rfl⟩ := List.mem_map.1 hpart
        exact absurd ((ValueType.mem_text hc).2 (by decide)) (by decide)
      have htrim : ∀ part ∈ (t :: arguments).map ValueType.text, Text.trim part = part := by
        intro part hpart
        obtain ⟨type, -, rfl⟩ := List.mem_map.1 hpart
        exact Text.trim_of_isWord type.isWord_text
      have hkeep : ∀ part ∈ (t :: arguments).map ValueType.text, (!part.isEmpty) = true := by
        intro part hpart
        obtain ⟨type, -, rfl⟩ := List.mem_map.1 hpart
        simpa using type.isWord_text.1
      rw [argumentsText, Text.splitOn_intercalate (by simp) hcomma, List.map_congr_left htrim,
        List.map_id', List.filter_eq_self.2 hkeep]
  rw [JavaType.methodDescriptorOf, hparts, returned.descriptorOf_text, List.flatMap_map]
  simp only [ValueType.descriptorOf_text]
  rfl

end Descriptors

end JarRemap.Format.Proguard

/-!
## Obfuscation logs

A log as it is written: classes, and below each its fields and its methods, these perhaps between
numbers of lines. Besides the methods of the class a log lists its constructors, and methods of other
classes that were inlined; both stand for no record.
-/

namespace JarRemap.Format.Proguard

section Logs

/-- The numbers of the first and the last line of a piece of code. -/
structure LineRange where
  first : Nat
  last : Nat

/-- What a line of code belongs to. -/
inductive Callee where
  /-- A method of the class. -/
  | own (name : Name) (simple : '.' ∉ name.text.toList)
      (ordinary : name.text.toList.head? ≠ some '<')
  /-- A constructor, or the code that sets up the class. -/
  | special (name : Name) (special : name.text.toList.head? = some '<')
  /-- A method of another class. -/
  | inlined (owner : TypeName) (name : Name)

/-- A method, with the numbers of its lines as it was compiled and in the source. -/
structure Method where
  compiled : Option LineRange
  returned : ReturnType
  callee : Callee
  arguments : List ValueType
  source : Option LineRange
  renamed : Name

inductive Member where
  | field (type : ValueType) (name renamed : Name)
  | method (m : Method)

structure Class where
  old : TypeName
  renamed : TypeName
  members : List Member

abbrev Log := List Class

end Logs

section Lines

/-- Line numbers before a method. -/
def LineRange.before (r : LineRange) : List Char :=
  Text.decimal r.first ++ ':' :: (Text.decimal r.last ++ [':'])

/-- Line numbers behind a method. -/
def LineRange.behind (r : LineRange) : List Char :=
  ':' :: (Text.decimal r.first ++ ':' :: Text.decimal r.last)

def Callee.text : Callee → List Char
  | own name _ _ => name.chars
  | special name _ => name.chars
  | inlined owner name => owner.dotted.chars ++ '.' :: name.chars

namespace Member

/-- What stands before the first blank inside of the line of a member. -/
def typed : Member → List Char
  | field type _ _ => type.text
  | method m => (m.compiled.map LineRange.before).getD [] ++ m.returned.text

/-- What stands behind it. -/
def named : Member → List Char
  | field _ name _ => name.chars
  | method m =>
      m.callee.text ++ '(' :: (argumentsText m.arguments ++
        ')' :: (m.source.map LineRange.behind).getD [])

def renamed : Member → Name
  | field _ _ renamed => renamed
  | method m => m.renamed

def line (m : Member) : List Char :=
  "    ".toList ++ m.typed ++ ' ' :: m.named ++ " -> ".toList ++ m.renamed.chars

end Member

namespace Class

def line (c : Class) : List Char :=
  c.old.dotted.chars ++ " -> ".toList ++ c.renamed.dotted.chars ++ [':']

def lines (c : Class) : List (List Char) := c.line :: c.members.map Member.line

end Class

/-- The text of a log, with remarks anywhere. -/
def Log.print (log : Log) (gaps : List (List Remark)) : List Char :=
  unlines (spread (gaps.map (List.map Remark.line)) (log.flatMap Class.lines))

example :
    let a : Name := ⟨⟨"a", by decide⟩, by decide⟩
    let owner : TypeName := ⟨["p", "A"], by decide, by decide⟩
    let type : ValueType := ⟨.type ⟨owner, by decide, by decide⟩, 1⟩
    let callee : Callee := .own a (by decide) (by decide)
    let method : Method := ⟨some ⟨1, 2⟩, none, callee, [type, type], some ⟨3, 4⟩, a⟩
    Log.print [⟨owner, owner, [.field type a a, .method method]⟩]
        [[], [⟨"", some "x", by decide, by decide⟩]] =
      "p.A -> p.A:\n#x\n    p.A[] a -> a\n    1:2:void a(p.A[],p.A[]):3:4 -> a\n".toList := by
  decide

end Lines

section Records

/-- The record of a member, unless it is no method of the class. -/
def Member.records (owner : String) : Member → List Record
  | field type name renamed =>
      [⟨.field owner (some (String.ofList type.descriptor)), [some name.text, some renamed.text],
        none⟩]
  | method m =>
      match m.callee with
      | .own name _ _ =>
          [⟨.method owner (some (String.ofList (methodDescriptor m.arguments m.returned))),
            [some name.text, some m.renamed.text], none⟩]
      | _ => []

/-- A class and its members, under its name with slashes. -/
def Class.records (c : Class) : List Record :=
  ⟨.type, [some c.old.slashed, some c.renamed.slashed], none⟩ ::
    c.members.flatMap (Member.records c.old.slashed)

/-- What a log says. -/
def Log.source (log : Log) : Source :=
  ⟨Namespace.mojmap, [Namespace.official], [Namespace.mojmap, Namespace.official],
    log.flatMap Class.records⟩

end Records

section Arrows

def arrow : List Char := "->".toList

/-- The arrow of the line is the first one between blanks: no field is named like it, and no class of
its name begins the line. -/
def Member.Parted : Member → Prop
  | field type name _ => type.text ≠ arrow ∧ name.chars ≠ arrow
  | method m => m.compiled = none → m.returned.text ≠ arrow

def Log.Parted (log : Log) : Prop := ∀ c ∈ log, ∀ m ∈ c.members, m.Parted

end Arrows

end JarRemap.Format.Proguard
