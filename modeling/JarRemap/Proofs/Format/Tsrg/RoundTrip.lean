import JarRemap.Format.Tsrg
import JarRemap.Proofs.Format.WordLine

/-!
# The wide nested format

Documents as trees with their texts, and what is read back from these.
-/

/-!
## Documents of the wide nested format

A document as a tree: namespaces, and classes with their fields and methods, these with their
parameters and markers, everything with a name in each namespace. It is written below a header, each
element one level deeper than what it belongs to, and stands for one record for every class, member
and parameter.
-/

namespace JarRemap.Format.Tsrg.Wide

section Trees

/-- A name in the first namespace and in some others. The first name begins no remark. -/
structure Names (others : Nat) where
  key : Word
  names : Vector Word others
  unmarked : key.text.toList.head? ≠ some '#'

/-- What can stand below a method. -/
inductive MethodItem (others : Nat) where
  | static
  | parameter (index : UInt16) (names : Vector Word (others + 1))

/-- A field, perhaps with its descriptor, or a method. Their descriptors are told apart by the
parenthesis that only that of a method begins with. -/
inductive Member (others : Nat) where
  | field (names : Names others) (desc : Option Word)
      (isField : ∀ d ∈ desc, d.text.toList.head? ≠ some '(')
  | method (names : Names others) (desc : Word) (isMethod : desc.text.toList.head? = some '(')
      (items : List (MethodItem others))

/-- A class, whose name in the first namespace is not that of a package. -/
structure Class (others : Nat) where
  names : Names others
  unslashed : names.key.text.toList.getLast? ≠ some '/'
  members : List (Member others)

structure Document where
  key : Word
  others : List Word
  classes : List (Class others.length)

end Trees

variable {others : Nat}

section Lines

def Names.words (n : Names others) : List Word := n.key :: n.names.toList

def MethodItem.line : MethodItem others → List Char
  | .static => wordLine 2 [⟨"static", by decide⟩]
  | .parameter index names => wordLine 2 (.ofIndex index :: names.toList)

/-- A descriptor stands behind the first name. -/
def Member.lines : Member others → List (List Char)
  | .field n desc _ => [wordLine 1 (n.key :: (desc.toList ++ n.names.toList))]
  | .method n desc _ items =>
      wordLine 1 (n.key :: desc :: n.names.toList) :: items.map MethodItem.line

def Class.lines (c : Class others) : List (List Char) :=
  wordLine 0 c.names.words :: c.members.flatMap Member.lines

namespace Document

/-- The first line: the format and the namespaces. -/
def header (d : Document) : List Char := wordLine 0 (⟨"tsrg2", by decide⟩ :: d.key :: d.others)

/-- The text of a document, with packages before classes or at the end, and remarks anywhere below
the first line. -/
def print (d : Document) (packages : List (List Package)) (gaps : List (List Remark)) : List Char :=
  d.header ++ '\n' ::
    unlines (spread (gaps.map (List.map Remark.line))
      (packaged packages (d.classes.map Class.lines)))

example :
    let a : Word := ⟨"a", by decide⟩
    let desc : Word := ⟨"(I)V", by decide⟩
    let names : Names 1 := ⟨a, #v[a], by decide⟩
    let field : Member 1 := .field names (some a) (by decide)
    let method : Member 1 := .method names desc (by decide) [.static, .parameter 1 #v[a, a]]
    print ⟨a, [a], [⟨names, by decide, [field, method]⟩]⟩
        [[⟨⟨"a/", by decide⟩, [], by decide, by decide⟩]] [[], [⟨"", none, by decide, by decide⟩]] =
      "tsrg2 a a\na/\n\na a\n\ta a a\n\ta (I)V a\n\t\tstatic\n\t\t1 a a\n".toList := by
  decide

end Document

end Lines

section Records

def Names.texts (n : Names others) : List (Option String) := n.words.map fun w => some w.text

/-- The record of a parameter; a marker is none. -/
def MethodItem.records (owner method desc : String) : MethodItem others → List Record
  | .static => []
  | .parameter index names =>
      [⟨.param owner method (some desc) index, names.toList.map fun w => some w.text, none⟩]

/-- A field, or a method and its parameters. -/
def Member.records (owner : String) : Member others → List Record
  | .field n desc _ => [⟨.field owner (desc.map Word.text), n.texts, none⟩]
  | .method n desc _ items =>
      ⟨.method owner (some desc.text), n.texts, none⟩ ::
        items.flatMap (MethodItem.records owner n.key.text desc.text)

/-- A class and its members. -/
def Class.records (c : Class others) : List Record :=
  ⟨.type, c.names.texts, none⟩ :: c.members.flatMap (Member.records c.names.key.text)

/-- What a document says. -/
def Document.source (d : Document) : Source :=
  let others := d.others.map Word.text
  ⟨d.key.text, others, d.key.text :: others, d.classes.flatMap Class.records⟩

end Records

end JarRemap.Format.Tsrg.Wide

/-!
## Wide nested documents are read as they were written

The text of a document is read back as the records of the document, for every number of namespaces.
The depth of a line tells what it is, and the number of its words whether a member has a descriptor.
Behind the line of a class it is known which class is open, and behind that of a method which method
it is; a marker or a parameter leaves both.
-/

namespace JarRemap.Format.Tsrg.Wide

variable {others : Nat}

/-- The line of an element, at the depth of its words. -/
theorem step_wordLine (width depth : Nat) (s : State) {word : Word}
    (h : word.chars.head? ≠ some '#') (words : List Word) :
    step width s (wordLine depth (word :: words)) =
      match depth with
      | 0 => typeLine width ((word :: words).map Word.chars)
      | 1 =>
          match s.owner with
          | none => .error (.outside "Member" "class")
          | some owner => memberLine width owner ((word :: words).map Word.chars)
      | 2 => parameterLine width s ((word :: words).map Word.chars)
      | _ => .error .unexpectedIndentation := by
  rw [step, isRemark_wordLine depth word words h, words_wordLine, depth_wordLine]
  rfl

theorem step_remark (width : Nat) (r : Remark) (s : State) : step width s r.line = .ok (s, []) := by
  rw [step, if_pos r.isRemark_line]

/-- A line of a package ends the class before it. -/
theorem step_package (width : Nat) (s : State) (p : Package) :
    step width s p.line = .ok ({}, []) := by
  have hpackage : isPackage ((p.name :: p.rest).map Word.chars) = true := decide_eq_true p.slashed
  rw [Package.line, step_wordLine width 0 s p.unmarked]
  exact if_pos hpackage

@[simp] theorem Names.length_words (n : Names others) : n.words.length = others + 1 := by
  simp [words]

@[simp] theorem Names.length_texts (n : Names others) : n.texts.length = others + 1 := by
  simp [texts]

section Lines

variable (n : Names others) (owner : String)

theorem typeLine_words (h : n.key.text.toList.getLast? ≠ some '/') :
    typeLine (others + 1) (n.words.map Word.chars) =
      .ok (⟨some n.key.text, none⟩, [⟨.type, n.texts, none⟩]) := by
  have hpackage : ¬ isPackage (n.words.map Word.chars) = true := by
    rw [Bool.not_eq_true]
    exact decide_eq_false h
  have hwidth : (n.words.map Word.chars).length = others + 1 := by simp
  rw [typeLine, if_neg hpackage, if_neg (not_not_intro hwidth), Word.typeRecord_chars]
  simp [Names.words, Names.texts]

/-- As many words as there are namespaces are a field without a descriptor. -/
theorem memberLine_words :
    memberLine (others + 1) owner (n.words.map Word.chars) =
      .ok (⟨some owner, none⟩, [⟨.field owner none, n.texts, none⟩]) := by
  have hwidth : (n.words.map Word.chars).length = others + 1 := by simp
  have hrecord := Word.fieldRecord_chars owner none n.words
  rw [Option.map_none] at hrecord
  unfold memberLine
  rw [if_pos hwidth, hrecord]
  rfl

/-- One word more is the descriptor of a field or of a method. -/
theorem memberLine_described (desc : Word) :
    memberLine (others + 1) owner ((n.key :: desc :: n.names.toList).map Word.chars) =
      if desc.chars.head? = some '(' then
        .ok (⟨some owner, some ⟨owner, n.key.text, some desc.text⟩⟩,
          [methodRecord owner (some desc.chars) (n.words.map Word.chars)])
      else
        .ok (⟨some owner, none⟩,
          [fieldRecord owner (some desc.chars) (n.words.map Word.chars)]) := by
  have hwidth : ((n.key :: desc :: n.names.toList).map Word.chars).length = others + 1 + 1 := by
    simp
  unfold memberLine
  rw [if_neg (by omega), if_pos hwidth, ← n.key.ofList_chars, ← desc.ofList_chars]
  rfl

theorem memberLine_field {desc : Word} (h : desc.chars.head? ≠ some '(') :
    memberLine (others + 1) owner ((n.key :: desc :: n.names.toList).map Word.chars) =
      .ok (⟨some owner, none⟩, [⟨.field owner (some desc.text), n.texts, none⟩]) := by
  have hrecord := Word.fieldRecord_chars owner (some desc) n.words
  rw [Option.map_some] at hrecord
  rw [memberLine_described, if_neg h, hrecord]
  rfl

theorem memberLine_method {desc : Word} (h : desc.chars.head? = some '(') :
    memberLine (others + 1) owner ((n.key :: desc :: n.names.toList).map Word.chars) =
      .ok (⟨some owner, some ⟨owner, n.key.text, some desc.text⟩⟩,
        [⟨.method owner (some desc.text), n.texts, none⟩]) := by
  rw [memberLine_described, if_pos h, Word.methodRecord_chars]
  rfl

theorem parameterLine_words (s : State) {m : Method} (h : s.method = some m) (index : UInt16)
    (names : Vector Word (others + 1)) :
    parameterLine (others + 1) s ((Word.ofIndex index :: names.toList).map Word.chars) =
      .ok (s,
        [⟨.param m.owner m.name m.desc index, names.toList.map fun w => some w.text, none⟩]) := by
  have hwidth : ((Word.ofIndex index).chars :: names.toList.map Word.chars).length =
      others + 1 + 1 := by
    simp
  have hstatic : (Word.ofIndex index).chars :: names.toList.map Word.chars ≠ ["static".toList] := by
    intro heq
    rw [heq] at hwidth
    simp at hwidth
  have hindex : readIndex "parameter" (Word.ofIndex index).chars = .ok index := by
    rw [readIndex, Word.chars_ofIndex, Text.index?_decimal]
  rw [List.map_cons, parameterLine, if_neg hstatic, h]
  simp only [if_neg (not_not_intro hwidth), List.headD_cons, hindex, List.tail_cons,
    Word.map_nameOrNone]
  rfl

end Lines

section Steps

variable {s : State} {owner : String}

theorem step_class (c : Class others) (s : State) :
    step (others + 1) s (wordLine 0 c.names.words) =
      .ok (⟨some c.names.key.text, none⟩, [⟨.type, c.names.texts, none⟩]) := by
  rw [← typeLine_words c.names c.unslashed]
  exact step_wordLine _ 0 s c.names.unmarked _

/-- The line of a member is read inside of its class. -/
theorem step_member (h : s.owner = some owner) (n : Names others) (words : List Word) :
    step (others + 1) s (wordLine 1 (n.key :: words)) =
      memberLine (others + 1) owner ((n.key :: words).map Word.chars) := by
  rw [step_wordLine _ 1 s n.unmarked]
  simp only [h]

/-- What stands below a method is read inside of the method, and leaves it. -/
theorem reads_methodItem {m : Method} {desc : String} (hdesc : m.desc = some desc)
    (item : MethodItem others) :
    Reads (step (others + 1)) (fun s => s.owner = some owner ∧ s.method = some m) [item.line]
      (item.records m.owner m.name desc) fun s => s.owner = some owner ∧ s.method = some m := by
  refine reads_line fun s hs => ⟨s, ?_, hs⟩
  cases item with
  | static =>
    rw [MethodItem.line, step_wordLine _ 2 s (by decide)]
    rfl
  | parameter index names =>
    have hsign : (Word.ofIndex index).chars.head? ≠ some '#' := by
      rw [Word.chars_ofIndex]
      exact fun hsign => Text.not_mem_decimal (by decide) _ (List.mem_of_mem_head? hsign)
    have hread := parameterLine_words s hs.2 index names
    rw [hdesc] at hread
    rw [MethodItem.line, step_wordLine _ 2 s hsign]
    exact hread

/-- A member adds its records, and its class stays open. -/
theorem reads_member (m : Member others) (owner : String) :
    Reads (step (others + 1)) (fun s => s.owner = some owner) m.lines (m.records owner)
      fun s => s.owner = some owner := by
  cases m with
  | field n desc isField =>
    refine reads_line fun s hs => ⟨⟨some owner, none⟩, ?_, rfl⟩
    cases desc with
    | none => exact (step_member hs n _).trans (memberLine_words n owner)
    | some desc => exact (step_member hs n _).trans (memberLine_field n owner (isField desc rfl))
  | method n desc isMethod items =>
    have hmethod : Reads (step (others + 1)) (fun s => s.owner = some owner)
        [wordLine 1 (n.key :: desc :: n.names.toList)]
        [⟨.method owner (some desc.text), n.texts, none⟩]
        fun s => s.owner = some owner ∧ s.method = some ⟨owner, n.key.text, some desc.text⟩ := by
      have hread := memberLine_method n owner isMethod
      exact reads_line fun s hs => ⟨_, (step_member hs n _).trans hread, rfl, rfl⟩
    have hitem : ∀ item : MethodItem others, Reads (step (others + 1))
        (fun s => s.owner = some owner ∧ s.method = some ⟨owner, n.key.text, some desc.text⟩)
        [item.line] (item.records owner n.key.text desc.text)
        fun s => s.owner = some owner ∧ s.method = some ⟨owner, n.key.text, some desc.text⟩ :=
      reads_methodItem rfl
    have hitems := reads_flatMap fun item (_ : item ∈ items) => hitem item
    rw [← List.map_eq_flatMap] at hitems
    exact (hmethod.append hitems).weaken fun _ hs => hs.1

/-- A class may follow anything. -/
theorem reads_class (c : Class others) :
    Reads (step (others + 1)) (fun _ => True) c.lines c.records fun _ => True := by
  have hclass : Reads (step (others + 1)) (fun _ => True) [wordLine 0 c.names.words]
      [⟨.type, c.names.texts, none⟩] fun s => s.owner = some c.names.key.text :=
    reads_line fun s _ => ⟨_, step_class c s, rfl⟩
  have hmembers := reads_flatMap fun m (_ : m ∈ c.members) => reads_member m c.names.key.text
  exact (hclass.append hmembers).weaken fun _ _ => trivial

end Steps

section Documents

theorem isLine_lines (c : Class others) : ∀ line ∈ c.lines, IsLine line := by
  refine List.forall_mem_cons.2 ⟨isLine_wordLine 0 _, List.forall_mem_flatMap.2 fun m _ => ?_⟩
  cases m with
  | field n desc isField => exact List.forall_mem_singleton.2 (isLine_wordLine 1 _)
  | method n desc isMethod items =>
    refine List.forall_mem_cons.2 ⟨isLine_wordLine 1 _, List.forall_mem_map.2 fun item _ => ?_⟩
    cases item <;> exact isLine_wordLine 2 _

theorem MethodItem.length_names {owner method desc : String} {item : MethodItem others} {r : Record}
    (h : r ∈ item.records owner method desc) : r.names.length = others + 1 := by
  cases item with
  | static => cases h
  | parameter index names =>
    rw [List.mem_singleton.1 h]
    simp

theorem Member.length_names {owner : String} {m : Member others} {r : Record}
    (h : r ∈ m.records owner) : r.names.length = others + 1 := by
  cases m with
  | field n desc isField =>
    rw [List.mem_singleton.1 h]
    exact n.length_texts
  | method n desc isMethod items =>
    rcases List.mem_cons.1 h with rfl | h
    · exact n.length_texts
    · obtain ⟨item, -, hr⟩ := List.mem_flatMap.1 h
      exact item.length_names hr

/-- Every record has a name in each namespace. -/
theorem Class.length_names {c : Class others} {r : Record} (h : r ∈ c.records) :
    r.names.length = others + 1 := by
  rcases List.mem_cons.1 h with rfl | h
  · exact c.names.length_texts
  · obtain ⟨m, -, hr⟩ := List.mem_flatMap.1 h
    exact m.length_names hr

variable (d : Document)

/-- The namespaces are read from the first line. -/
theorem header_header : header (some d.header) = .ok (d.key.text, d.others.map Word.text) := by
  have hformat : "tsrg2 ".toList.isPrefixOf d.header = true := by
    rw [Document.header, wordLine, List.map_cons, List.map_cons, List.intercalate_cons_cons]
    rfl
  rw [header, if_pos hformat, Document.header, words_wordLine]
  simp [Function.comp_def]

/-- Below the first line a document is read as its records. -/
theorem Document.readLines_eq (packages : List (List Package)) (gaps : List (List Remark))
    {numbered : List (Nat × List Char)}
    (h : numbered.map Prod.snd = Text.lines (unlines (spread (gaps.map (List.map Remark.line))
      (packaged packages (d.classes.map Class.lines))))) :
    readLines (step (d.others.length + 1)) {} numbered = .ok (d.classes.flatMap Class.records) := by
  have hpackage : ∀ p : Package,
      Reads (step (d.others.length + 1)) (fun _ => True) [p.line] [] fun _ => True :=
    fun p => reads_line fun s _ => ⟨{}, step_package _ s p, trivial⟩
  have hread := reads_packaged hpackage (fun c (_ : c ∈ d.classes) => reads_class c) packages
  have hlines : ∀ line ∈ packaged packages (d.classes.map Class.lines), IsLine line :=
    isLine_packaged (List.forall_mem_map.2 fun c _ => isLine_lines c)
  exact readLines_unlines hlines hread trivial Remark.isLine (step_remark _) h

/-- The text of a document is read back as just its records, for any number of namespaces, wherever
remarks stand, and whatever packages stand before its classes. -/
theorem parse_written (packages : List (List Package)) (gaps : List (List Remark)) :
    parse (d.print packages gaps) = .ok d.source := by
  have hsource : (Source.start d.key.text (d.others.map Word.text)).pushAll
      (d.classes.flatMap Class.records) = d.source := by
    refine pushAll_start fun r hr => ?_
    obtain ⟨c, -, hc⟩ := List.mem_flatMap.1 hr
    rw [c.length_names hc, List.length_map]
  have hwidth : (Source.start d.key.text (d.others.map Word.text)).width = d.others.length + 1 := by
    simp [Source.start, Source.width]
  have hline : IsLine d.header := isLine_wordLine 0 _
  obtain ⟨below, hnumbered, hbelow⟩ := exists_numberedLines_cons hline
    (unlines (spread (gaps.map (List.map Remark.line))
      (packaged packages (d.classes.map Class.lines))))
  have hread := d.readLines_eq packages gaps hbelow
  rw [parse, Document.print, hnumbered]
  simp only [List.head?_cons, Option.map_some, header_header, List.tail_cons, Except.mapError, bind,
    Except.bind, hwidth]
  rw [hread]
  exact congrArg Except.ok hsource

end Documents

end JarRemap.Format.Tsrg.Wide
