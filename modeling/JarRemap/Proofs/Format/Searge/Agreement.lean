import JarRemap.Format.Srg
import JarRemap.Format.Tsrg
import JarRemap.Proofs.Format.WordLine
import JarRemap.Proofs.Text.Split

/-!
# Flat, nested and scripted searge names

One listing of searge names, its three texts, and what is read back from them.
-/

/-!
## Listings of searge names

The searge names of classes and of their fields and methods, and three ways to write them down: flat,
with every member qualified by its class; nested, with the members below their class; and as a script
for an obfuscator. What carries no name may stand between the lines: remarks everywhere, lines of
packages in the flat form, other directives in a script. In the nested form a line of a package ends
the class before it, so it stands before a class or at the end.
-/

namespace JarRemap.Format.Searge

section Listings

/-- The name of a class. It begins no remark and is not that of a package. -/
structure TypeName extends Word where
  unmarked : text.toList.head? ≠ some '#'
  unslashed : text.toList.getLast? ≠ some '/'

/-- The name of a member. It begins no remark and is not qualified. -/
structure MemberName extends Word where
  unmarked : text.toList.head? ≠ some '#'
  simple : '/' ∉ text.toList

/-- The official and the searge name of a field or of a method, of which the descriptor is known. -/
inductive Member where
  | field (old renamed : MemberName)
  | method (old : MemberName) (desc : Word) (renamed : MemberName)

structure Class where
  old : TypeName
  renamed : TypeName
  members : List Member

abbrev Listing := List Class

def Member.record (owner : String) : Member → Record
  | .field old renamed => ⟨.field owner none, [some old.text, some renamed.text], none⟩
  | .method old desc renamed =>
      ⟨.method owner (some desc.text), [some old.text, some renamed.text], none⟩

/-- A class and its members. -/
def Class.records (c : Class) : List Record :=
  ⟨.type, [some c.old.text, some c.renamed.text], none⟩ :: c.members.map (Member.record c.old.text)

/-- What a listing says. -/
def Listing.source (listing : Listing) : Source :=
  ⟨Namespace.official, [Namespace.searge], [Namespace.official, Namespace.searge],
    listing.flatMap Class.records⟩

end Listings

/-- A member as its class qualifies it. -/
def TypeName.member (owner : TypeName) (m : MemberName) : Word :=
  owner.join '/' m.toWord (by decide)

section Flat

/-- A line that a flat text has besides its entries. -/
inductive FlatFiller where
  | remark (r : Remark)
  | package (words : List Word)

def FlatFiller.line : FlatFiller → List Char
  | remark r => r.line
  | package words => wordLine 0 (⟨"PK:", by decide⟩ :: words)

/-- The line of a member. A method has its descriptor in the searge names as well. -/
def Member.flatLine (redescribed : Word → Word) (c : Class) : Member → List Char
  | .field old renamed =>
      wordLine 0 [⟨"FD:", by decide⟩, c.old.member old, c.renamed.member renamed]
  | .method old desc renamed =>
      wordLine 0 [⟨"MD:", by decide⟩, c.old.member old, desc, c.renamed.member renamed,
        redescribed desc]

def Class.flatLines (redescribed : Word → Word) (c : Class) : List (List Char) :=
  wordLine 0 [⟨"CL:", by decide⟩, c.old.toWord, c.renamed.toWord] ::
    c.members.map (Member.flatLine redescribed c)

/-- The flat text of a listing. -/
def Listing.flat (listing : Listing) (redescribed : Word → Word) (gaps : List (List FlatFiller)) :
    List Char :=
  unlines (spread (gaps.map (List.map FlatFiller.line))
    (listing.flatMap (Class.flatLines redescribed)))

end Flat

section Nested

def Member.nestedLine : Member → List Char
  | .field old renamed => wordLine 1 [old.toWord, renamed.toWord]
  | .method old desc renamed => wordLine 1 [old.toWord, desc, renamed.toWord]

def Class.nestedLines (c : Class) : List (List Char) :=
  wordLine 0 [c.old.toWord, c.renamed.toWord] :: c.members.map Member.nestedLine

/-- The nested text of a listing, with packages before classes or at the end. -/
def Listing.nested (listing : Listing) (packages : List (List Package))
    (gaps : List (List Remark)) : List Char :=
  unlines (spread (gaps.map (List.map Remark.line))
    (packaged packages (listing.map Class.nestedLines)))

end Nested

section Script

/-- A line that a script has besides its entries. -/
inductive ScriptFiller where
  | remark (r : Remark)
  | directive (kind : Word) (words : List Word) (h : kind.text ∈ Retroguard.otherDirectives)

def ScriptFiller.line : ScriptFiller → List Char
  | remark r => r.line
  | directive kind words _ => wordLine 0 (kind :: words)

/-- The new name of a member, qualified by that of its class or not. -/
def Class.newName (qualified : Bool) (c : Class) (m : MemberName) : Word :=
  if qualified then c.renamed.member m else m.toWord

def Member.scriptLine (qualified : Bool) (c : Class) : Member → List Char
  | .field old renamed =>
      wordLine 0 [⟨".field_map", by decide⟩, c.old.member old, c.newName qualified renamed]
  | .method old desc renamed =>
      wordLine 0 [⟨".method_map", by decide⟩, c.old.member old, desc, c.newName qualified renamed]

def Class.scriptLines (qualified : Bool) (c : Class) : List (List Char) :=
  wordLine 0 [⟨".class_map", by decide⟩, c.old.toWord, c.renamed.toWord] ::
    c.members.map (Member.scriptLine qualified c)

/-- The script of a listing, with new names of members qualified or not. -/
def Listing.script (listing : Listing) (qualified : Bool) (gaps : List (List ScriptFiller)) :
    List Char :=
  unlines (spread (gaps.map (List.map ScriptFiller.line))
    (listing.flatMap (Class.scriptLines qualified)))

end Script

example :
    let a : TypeName := ⟨⟨"a", by decide⟩, by decide, by decide⟩
    let b : TypeName := ⟨⟨"b/B", by decide⟩, by decide, by decide⟩
    let m : MemberName := ⟨⟨"m", by decide⟩, by decide, by decide⟩
    let desc : Word := ⟨"(La;)V", by decide⟩
    let slash : Package := ⟨⟨"b/", by decide⟩, [], by decide, by decide⟩
    let listing : Listing := [⟨a, b, [.field m m, .method m desc m]⟩]
    listing.flat id [[.package []]] =
        "PK:\nCL: a b/B\nFD: a/m b/B/m\nMD: a/m (La;)V b/B/m (La;)V\n".toList ∧
      listing.nested [[slash]] [[⟨"", some "x", by decide, by decide⟩]] =
        "#x\nb/\na b/B\n\tm m\n\tm (La;)V m\n".toList ∧
      listing.script false [] =
        ".class_map a b/B\n.field_map a/m m\n.method_map a/m (La;)V m\n".toList := by
  decide

end JarRemap.Format.Searge

/-!
## The searge formats say the same

A listing that is written flat, nested or as a script is read back from each of the three texts as
just its records. The flat form and the script part a qualified name at its last slash, and the
names of members have none; the nested form keeps the class in mind.
-/

namespace JarRemap.Format.Searge

theorem MemberName.not_mem_chars (m : MemberName) : '/' ∉ m.chars := m.simple

/-- A member is told from the class that qualifies it. -/
theorem splitQualified?_member (owner : TypeName) (m : MemberName) :
    splitQualified? (owner.member m).chars = some (owner.chars, m.chars) := by
  rw [splitQualified?, TypeName.member, Word.chars_join, Text.cutLast?_append_cons m.not_mem_chars]

theorem simpleName_newName (qualified : Bool) (c : Class) (m : MemberName) :
    Retroguard.simpleName (c.newName qualified m).chars = m.chars := by
  cases qualified with
  | true =>
    rw [Class.newName, if_pos rfl, Retroguard.simpleName, splitQualified?_member]
    rfl
  | false =>
    rw [Class.newName, if_neg Bool.false_ne_true, Retroguard.simpleName, splitQualified?,
      Text.cutLast?_of_not_mem m.not_mem_chars]
    rfl

theorem Class.length_names {c : Class} {r : Record} (h : r ∈ c.records) : r.names.length = 2 := by
  rcases List.mem_cons.1 h with rfl | h
  · rfl
  · obtain ⟨m, -, rfl⟩ := List.mem_map.1 h
    cases m <;> rfl

/-- Every record of a listing has an official and a searge name. -/
theorem Listing.length_names {listing : Listing} {r : Record}
    (h : r ∈ listing.flatMap Class.records) : r.names.length = 2 := by
  obtain ⟨c, -, hr⟩ := List.mem_flatMap.1 h
  exact c.length_names hr

/-- Where the line of a class leads to a state in which its members are read, and which they leave as
it is, the lines of the class are read as its records. -/
theorem Class.reads_lines {σ : Type} {step : Step σ} {inside : σ} {heading : List Char}
    {line : Member → List Char} (c : Class)
    (hclass : ∀ s, step s heading =
      .ok (inside, [⟨.type, [some c.old.text, some c.renamed.text], none⟩]))
    (hmember : ∀ m, step inside (line m) = .ok (inside, [m.record c.old.text])) :
    Reads step (fun _ => True) (heading :: c.members.map line) c.records fun _ => True := by
  have hmembers : Reads step (· = inside) (c.members.map line)
      (c.members.map (Member.record c.old.text)) (· = inside) := by
    refine reads_map fun m _ s hs => ⟨inside, ?_, rfl⟩
    rw [hs]
    exact hmember m
  have hheading : Reads step (fun _ => True) [heading]
      [⟨.type, [some c.old.text, some c.renamed.text], none⟩] (· = inside) :=
    reads_line fun s _ => ⟨inside, hclass s, rfl⟩
  exact (hheading.append hmembers).weaken fun _ _ => trivial

section Flat

theorem srg_step_wordLine {kind : Word} (h : kind.chars.head? ≠ some '#') (words : List Word) :
    Srg.step () (wordLine 0 (kind :: words)) =
      (Srg.entry kind.text (words.map Word.chars)).map fun records => ((), records) := by
  rw [Srg.step, isRemark_wordLine 0 kind words h, words_wordLine]
  simp

theorem FlatFiller.step_line (f : FlatFiller) : Srg.step () f.line = .ok ((), []) := by
  cases f with
  | remark r => rw [line, Srg.step, if_pos r.isRemark_line]
  | package words =>
    rw [line, srg_step_wordLine (by decide)]
    rfl

theorem FlatFiller.isLine_line (f : FlatFiller) : IsLine f.line := by
  cases f with
  | remark r => exact r.isLine
  | package words => exact isLine_wordLine 0 _

theorem srg_member (owner : TypeName) (m : MemberName) :
    Srg.member (owner.member m).chars = .ok (owner.chars, m.chars) := by
  rw [Srg.member, splitQualified?_member]

theorem Member.srg_step (redescribed : Word → Word) (c : Class) (m : Member) :
    Srg.step () (m.flatLine redescribed c) = .ok ((), [m.record c.old.text]) := by
  cases m with
  | field old renamed =>
    have hrecord := Word.fieldRecord_chars c.old.text none [old.toWord, renamed.toWord]
    rw [flatLine, srg_step_wordLine (by decide)]
    simp only [List.map_cons, List.map_nil, Srg.entry, srg_member, bind, Except.bind, pure,
      Except.pure, Except.map, Word.ofList_chars]
    exact congrArg (fun r => Except.ok ((), [r])) hrecord
  | method old desc renamed =>
    have hrecord := Word.methodRecord_chars c.old.text desc [old.toWord, renamed.toWord]
    rw [flatLine, srg_step_wordLine (by decide)]
    simp only [List.map_cons, List.map_nil, Srg.entry, srg_member, bind, Except.bind, pure,
      Except.pure, Except.map, Word.ofList_chars]
    exact congrArg (fun r => Except.ok ((), [r])) hrecord

theorem Class.srg_step (c : Class) :
    Srg.step () (wordLine 0 [⟨"CL:", by decide⟩, c.old.toWord, c.renamed.toWord]) =
      .ok ((), [⟨.type, [some c.old.text, some c.renamed.text], none⟩]) := by
  have hrecord := Word.typeRecord_chars [c.old.toWord, c.renamed.toWord]
  rw [srg_step_wordLine (by decide)]
  exact congrArg (fun r => Except.ok ((), [r])) hrecord

theorem Class.reads_flat (redescribed : Word → Word) (c : Class) :
    Reads Srg.step (fun _ => True) (c.flatLines redescribed) c.records fun _ => True :=
  c.reads_lines (fun _ => c.srg_step) fun m => m.srg_step redescribed c

theorem isLine_flatLines (redescribed : Word → Word) (c : Class) :
    ∀ line ∈ c.flatLines redescribed, IsLine line := by
  refine List.forall_mem_cons.2 ⟨isLine_wordLine 0 _, List.forall_mem_map.2 fun m _ => ?_⟩
  cases m <;> exact isLine_wordLine 0 _

end Flat

section Script

theorem script_step_wordLine {kind : Word} (h : kind.chars.head? ≠ some '#') (words : List Word) :
    Retroguard.step () (wordLine 0 (kind :: words)) =
      (Retroguard.entry kind.text (words.map Word.chars)).map fun records => ((), records) := by
  rw [Retroguard.step, isRemark_wordLine 0 kind words h, words_wordLine]
  simp

theorem entry_otherDirective {kind : String} (h : kind ∈ Retroguard.otherDirectives)
    (words : List (List Char)) : Retroguard.entry kind words = .ok [] := by
  simp only [Retroguard.otherDirectives, List.mem_cons, List.not_mem_nil, or_false] at h
  rcases h with rfl | rfl | rfl | rfl | rfl | rfl | rfl | rfl | rfl <;> rfl

theorem ScriptFiller.step_line (f : ScriptFiller) :
    Retroguard.step () f.line = .ok ((), []) := by
  cases f with
  | remark r => rw [line, Retroguard.step, if_pos r.isRemark_line]
  | directive kind words h =>
    have hsign : kind.chars.head? ≠ some '#' := by
      intro hsign
      have hall : ∀ d ∈ Retroguard.otherDirectives, d.toList.head? ≠ some '#' := by decide
      exact hall kind.text h hsign
    rw [line, script_step_wordLine hsign, entry_otherDirective h]
    rfl

theorem ScriptFiller.isLine_line (f : ScriptFiller) : IsLine f.line := by
  cases f with
  | remark r => exact r.isLine
  | directive kind words h => exact isLine_wordLine 0 _

theorem Member.script_step (qualified : Bool) (c : Class) (m : Member) :
    Retroguard.step () (m.scriptLine qualified c) = .ok ((), [m.record c.old.text]) := by
  cases m with
  | field old renamed =>
    have hrecord := Word.fieldRecord_chars c.old.text none [old.toWord, renamed.toWord]
    rw [scriptLine, script_step_wordLine (by decide)]
    simp only [List.map_cons, List.map_nil, Retroguard.entry, splitQualified?_member,
      simpleName_newName, Except.map, Word.ofList_chars]
    exact congrArg (fun r => Except.ok ((), [r])) hrecord
  | method old desc renamed =>
    have hrecord := Word.methodRecord_chars c.old.text desc [old.toWord, renamed.toWord]
    rw [scriptLine, script_step_wordLine (by decide)]
    simp only [List.map_cons, List.map_nil, Retroguard.entry, splitQualified?_member,
      simpleName_newName, Except.map, Word.ofList_chars]
    exact congrArg (fun r => Except.ok ((), [r])) hrecord

theorem Class.script_step (c : Class) :
    Retroguard.step () (wordLine 0 [⟨".class_map", by decide⟩, c.old.toWord, c.renamed.toWord]) =
      .ok ((), [⟨.type, [some c.old.text, some c.renamed.text], none⟩]) := by
  have hrecord := Word.typeRecord_chars [c.old.toWord, c.renamed.toWord]
  rw [script_step_wordLine (by decide)]
  exact congrArg (fun r => Except.ok ((), [r])) hrecord

theorem Class.reads_script (qualified : Bool) (c : Class) :
    Reads Retroguard.step (fun _ => True) (c.scriptLines qualified) c.records fun _ => True :=
  c.reads_lines (fun _ => c.script_step) fun m => m.script_step qualified c

theorem isLine_scriptLines (qualified : Bool) (c : Class) :
    ∀ line ∈ c.scriptLines qualified, IsLine line := by
  refine List.forall_mem_cons.2 ⟨isLine_wordLine 0 _, List.forall_mem_map.2 fun m _ => ?_⟩
  cases m <;> exact isLine_wordLine 0 _

end Script

section Nested

variable {owner : Option String}

theorem nested_step_remark (r : Remark) (owner : Option String) :
    Tsrg.step owner r.line = .ok (owner, []) := by
  rw [Tsrg.step, if_pos r.isRemark_line]

/-- A line of a package ends the class before it. -/
theorem nested_step_package (p : Package) : Tsrg.step owner p.line = .ok (none, []) := by
  have hpackage : Tsrg.isPackage ((p.name :: p.rest).map Word.chars) = true :=
    decide_eq_true p.slashed
  simp only [Package.line, Tsrg.step, isRemark_wordLine 0 _ _ p.unmarked, words_wordLine,
    depth_wordLine, hpackage, Bool.false_eq_true, if_false, if_true]

theorem nested_step_class (c : Class) :
    Tsrg.step owner (wordLine 0 [c.old.toWord, c.renamed.toWord]) =
      .ok (some c.old.text, [⟨.type, [some c.old.text, some c.renamed.text], none⟩]) := by
  have hpackage : Tsrg.isPackage [c.old.chars, c.renamed.chars] = false :=
    decide_eq_false c.old.unslashed
  have hrecord := Word.typeRecord_chars [c.old.toWord, c.renamed.toWord]
  simp only [Tsrg.step, isRemark_wordLine 0 _ _ c.old.unmarked, words_wordLine, depth_wordLine,
    List.map_cons, List.map_nil, hpackage, Bool.false_eq_true, if_false, if_true, Word.ofList_chars]
  exact congrArg (fun r => Except.ok (some c.old.text, [r])) hrecord

theorem Member.nested_step (m : Member) (owner : String) :
    Tsrg.step (some owner) m.nestedLine = .ok (some owner, [m.record owner]) := by
  cases m with
  | field old renamed =>
    have hrecord := Word.fieldRecord_chars owner none [old.toWord, renamed.toWord]
    rw [nestedLine, Tsrg.step, isRemark_wordLine 1 _ _ old.unmarked, words_wordLine, depth_wordLine]
    exact congrArg (fun r => Except.ok (some owner, [r])) hrecord
  | method old desc renamed =>
    have hrecord := Word.methodRecord_chars owner desc [old.toWord, renamed.toWord]
    rw [nestedLine, Tsrg.step, isRemark_wordLine 1 _ _ old.unmarked, words_wordLine, depth_wordLine]
    exact congrArg (fun r => Except.ok (some owner, [r])) hrecord

/-- A class may follow anything, and so may a package. -/
theorem Class.reads_nested (c : Class) :
    Reads Tsrg.step (fun _ => True) c.nestedLines c.records fun _ => True :=
  c.reads_lines (fun _ => nested_step_class c) fun m => m.nested_step c.old.text

theorem isLine_nestedLines (c : Class) : ∀ line ∈ c.nestedLines, IsLine line := by
  refine List.forall_mem_cons.2 ⟨isLine_wordLine 0 _, List.forall_mem_map.2 fun m _ => ?_⟩
  cases m <;> exact isLine_wordLine 1 _

end Nested

theorem Listing.readLines_flat (listing : Listing) (redescribed : Word → Word)
    (gaps : List (List FlatFiller)) :
    readLines Srg.step () (Text.numberedLines (listing.flat redescribed gaps)) =
      .ok (listing.flatMap Class.records) := by
  have hread : Reads Srg.step (fun _ => True) (listing.flatMap (Class.flatLines redescribed))
      (listing.flatMap Class.records) fun _ => True :=
    reads_flatMap fun c _ => c.reads_flat redescribed
  have hlines := List.forall_mem_flatMap.2 fun c (_ : c ∈ listing) => isLine_flatLines redescribed c
  exact readLines_unlines hlines hread trivial FlatFiller.isLine_line (fun f _ => f.step_line)
    (Text.map_snd_numberedLines _)

theorem Listing.readLines_nested (listing : Listing) (packages : List (List Package))
    (gaps : List (List Remark)) :
    readLines Tsrg.step none (Text.numberedLines (listing.nested packages gaps)) =
      .ok (listing.flatMap Class.records) := by
  have hpackage : ∀ p : Package, Reads Tsrg.step (fun _ => True) [p.line] [] fun _ => True :=
    fun p => reads_line fun _ _ => ⟨none, nested_step_package p, trivial⟩
  have hread := reads_packaged hpackage (fun c (_ : c ∈ listing) => c.reads_nested) packages
  have hlines : ∀ line ∈ packaged packages (listing.map Class.nestedLines), IsLine line :=
    isLine_packaged (List.forall_mem_map.2 fun c _ => isLine_nestedLines c)
  exact readLines_unlines hlines hread trivial Remark.isLine nested_step_remark
    (Text.map_snd_numberedLines _)

theorem Listing.readLines_script (listing : Listing) (qualified : Bool)
    (gaps : List (List ScriptFiller)) :
    readLines Retroguard.step () (Text.numberedLines (listing.script qualified gaps)) =
      .ok (listing.flatMap Class.records) := by
  have hread : Reads Retroguard.step (fun _ => True)
      (listing.flatMap (Class.scriptLines qualified)) (listing.flatMap Class.records)
      fun _ => True :=
    reads_flatMap fun c _ => c.reads_script qualified
  have hlines := List.forall_mem_flatMap.2 fun c (_ : c ∈ listing) => isLine_scriptLines qualified c
  exact readLines_unlines hlines hread trivial ScriptFiller.isLine_line (fun f _ => f.step_line)
    (Text.map_snd_numberedLines _)

/-- A listing is read from its flat text, from its nested text and from its script as the same
source: its own records in order, whatever stands between the lines that carries no name, however
the descriptors are renamed, and whether new names of members are qualified or not. -/
theorem parse_listing (listing : Listing) (redescribed : Word → Word)
    (flatGaps : List (List FlatFiller)) (packages : List (List Package))
    (nestedGaps : List (List Remark)) (qualified : Bool) (scriptGaps : List (List ScriptFiller)) :
    Srg.parse (listing.flat redescribed flatGaps) = .ok listing.source ∧
      Tsrg.parse (listing.nested packages nestedGaps) = .ok listing.source ∧
      Retroguard.parse (listing.script qualified scriptGaps) = .ok listing.source := by
  have hsource : (Source.start Namespace.official [Namespace.searge]).pushAll
      (listing.flatMap Class.records) = listing.source :=
    pushAll_start fun r hr => Listing.length_names hr
  refine ⟨?_, ?_, ?_⟩
  · rw [Srg.parse, listing.readLines_flat, ← hsource]
    rfl
  · rw [Tsrg.parse, listing.readLines_nested, ← hsource]
    rfl
  · rw [Retroguard.parse, listing.readLines_script, ← hsource]
    rfl

end JarRemap.Format.Searge
