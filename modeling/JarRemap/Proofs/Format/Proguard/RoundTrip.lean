import JarRemap.Proofs.Format.Proguard.Log

/-!
# Reading obfuscation logs

Single lines, which are cut at their arrows, and then whole logs.
-/

/-!
## Lines of an obfuscation log

A line is cut at its first arrow between blanks, and behind its indentation at its first blank. The
line of a class is always read as the class. The line of a member is read as the member if no other
arrow stands before the one of the line, and is an error if one does.
-/

namespace JarRemap.Format.Proguard

section Arrows

/-- The mark between an old and a new name. -/
def mark : List Char := " -> ".toList

theorem mark_eq : mark = [' ', '-', '>', ' '] := rfl

/-- An arrow between blanks does not begin in a word. -/
theorem cutAt?_append {word : List Char} (h : ' ' ∉ word) (s : List Char) :
    Text.cutAt? mark (word ++ s) =
      (Text.cutAt? mark s).map fun parts => (word ++ parts.1, parts.2) := by
  induction word with
  | nil => simp
  | cons c word ih =>
    rw [List.mem_cons, not_or] at h
    have hmark : mark.isPrefixOf? (c :: (word ++ s)) = none := by
      simp [mark_eq, List.isPrefixOf?, h.1]
    rw [List.cons_append, Text.cutAt?]
    simp only [hmark, ih h.2, Option.map_map]
    rfl

/-- Between blanks, a word that is no arrow is read over. -/
theorem cutAt?_word {word : List Char} (h : ' ' ∉ word) (harrow : word ≠ arrow) (s : List Char) :
    Text.cutAt? mark (' ' :: (word ++ ' ' :: s)) =
      (Text.cutAt? mark (' ' :: s)).map fun parts => (' ' :: (word ++ parts.1), parts.2) := by
  have hmark : mark.isPrefixOf? (' ' :: (word ++ ' ' :: s)) = none := by
    by_contra hsome
    obtain ⟨rest, hrest⟩ := Option.ne_none_iff_exists'.1 hsome
    rw [List.isPrefixOf?_eq_some_iff_append_eq] at hrest
    have hsame : arrow ++ ' ' :: rest = word ++ ' ' :: s := (List.cons.inj hrest).2
    have hcut := congrArg (Text.cut? ' ') hsame
    rw [Text.cut?_append_cons (by decide), Text.cut?_append_cons h] at hcut
    exact harrow (Prod.mk.inj (Option.some.inj hcut)).1.symm
  rw [Text.cutAt?]
  simp only [hmark, cutAt?_append h, Option.map_map]
  rfl

theorem cutAt?_arrow (s : List Char) :
    Text.cutAt? mark (' ' :: (arrow ++ ' ' :: s)) = some ([], s) := rfl

end Arrows

section Words

theorem isWord_decimal_colon (n : Nat) {s : List Char} (h : ∀ c ∈ s, Text.isBlank c = false) :
    Text.IsWord (Text.decimal n ++ ':' :: s) :=
  ⟨by simp, List.forall_mem_append.2 ⟨(Text.isWord_decimal n).2,
    List.forall_mem_cons.2 ⟨by decide, h⟩⟩⟩

theorem LineRange.isWord_before (r : LineRange) : Text.IsWord r.before :=
  isWord_decimal_colon r.first (isWord_decimal_colon r.last (List.forall_mem_nil _)).2

theorem Callee.mem_text {callee : Callee} {c : Char} (h : c ∈ callee.text) :
    Text.isBlank c = false ∧ c ∉ marks := by
  cases callee with
  | own name _ _ => exact ⟨name.isWord.2 c h, name.unmarked c h⟩
  | special name _ => exact ⟨name.isWord.2 c h, name.unmarked c h⟩
  | inlined owner name =>
    rw [text, List.mem_append, List.mem_cons] at h
    rcases h with h | rfl | h
    · exact ⟨owner.dotted.isWord.2 c h, owner.dotted.unmarked c h⟩
    · decide
    · exact ⟨name.isWord.2 c h, name.unmarked c h⟩

theorem Member.isWord_typed (m : Member) : Text.IsWord m.typed := by
  cases m with
  | field type name renamed => exact type.isWord_text
  | method m =>
    rw [typed]
    cases m.compiled with
    | none => exact m.returned.isWord_text
    | some r =>
      exact ⟨List.append_ne_nil_of_left_ne_nil r.isWord_before.1 _,
        List.forall_mem_append.2 ⟨r.isWord_before.2, m.returned.isWord_text.2⟩⟩

theorem Member.isWord_named (m : Member) : Text.IsWord m.named := by
  cases m with
  | field type name renamed => exact name.isWord
  | method m =>
    have hbehind : ∀ c ∈ (m.source.map LineRange.behind).getD [], Text.isBlank c = false := by
      cases m.source with
      | none => exact List.forall_mem_nil _
      | some r =>
        exact List.forall_mem_cons.2 ⟨by decide,
          (isWord_decimal_colon r.first (Text.isWord_decimal r.last).2).2⟩
    refine ⟨by simp [named], List.forall_mem_append.2 ⟨fun c hc => (Callee.mem_text hc).1, ?_⟩⟩
    refine List.forall_mem_cons.2 ⟨by decide, List.forall_mem_append.2 ⟨?_, ?_⟩⟩
    · exact fun c hc => (mem_argumentsText hc).1
    · exact List.forall_mem_cons.2 ⟨by decide, hbehind⟩

theorem not_mem_of_isWord {w : List Char} (h : Text.IsWord w) : ' ' ∉ w :=
  fun hmem => absurd (h.2 ' ' hmem) (by decide)

theorem ne_arrow_of_mem {s : List Char} {c : Char} (hc : c ∈ s) (h : c ∉ arrow) : s ≠ arrow :=
  fun heq => h (heq ▸ hc)

/-- No word of the line of a member is an arrow, if the member is parted. -/
theorem Member.parted_iff (m : Member) : m.Parted ↔ m.typed ≠ arrow ∧ m.named ≠ arrow := by
  cases m with
  | field type name renamed => exact Iff.rfl
  | method m =>
    have hopen : '(' ∈ (Member.method m).named := by simp [named]
    have hnamed := ne_arrow_of_mem hopen (by decide)
    cases hcompiled : m.compiled with
    | none => simp [Parted, typed, hcompiled, hnamed]
    | some r =>
      have hcolon : ':' ∈ (Member.method m).typed := by simp [typed, hcompiled, LineRange.before]
      simp [Parted, hcompiled, hnamed, ne_arrow_of_mem hcolon (by decide)]

end Words

section Cuts

variable (m : Member)

theorem Member.line_eq :
    m.line = "   ".toList ++ ' ' :: (m.typed ++ ' ' :: (m.named ++ ' ' ::
      (arrow ++ ' ' :: m.renamed.chars))) := by
  simp [line, arrow]

/-- The indentation holds no arrow. -/
theorem cutAt?_indented (s : List Char) :
    Text.cutAt? mark ("   ".toList ++ ' ' :: s) =
      (Text.cutAt? mark (' ' :: s)).map fun parts => ("   ".toList ++ parts.1, parts.2) := by
  have hempty : ∀ s, Text.cutAt? mark (' ' :: ' ' :: s) =
      (Text.cutAt? mark (' ' :: s)).map fun parts => (' ' :: parts.1, parts.2) :=
    cutAt?_word List.not_mem_nil (by decide)
  have hindent : "   ".toList ++ ' ' :: s = ' ' :: ' ' :: ' ' :: ' ' :: s := rfl
  rw [hindent, hempty, hempty, hempty, Option.map_map, Option.map_map]
  rfl

/-- The line of a member is cut at its arrow. -/
theorem Member.cutAt?_line (h : m.Parted) :
    Text.cutAt? mark m.line =
      some ("    ".toList ++ (m.typed ++ ' ' :: m.named), m.renamed.chars) := by
  obtain ⟨htyped, hnamed⟩ := m.parted_iff.1 h
  rw [line_eq, cutAt?_indented, cutAt?_word (not_mem_of_isWord m.isWord_typed) htyped,
    cutAt?_word (not_mem_of_isWord m.isWord_named) hnamed, cutAt?_arrow]
  simp

end Cuts

section Lines

variable {owner : String}

theorem dropLineNumbers_of_unnumbered {s : List Char} (h : Unnumbered s) :
    dropLineNumbers s = s := by
  rw [dropLineNumbers, if_neg]
  rw [h]
  exact Bool.false_ne_true

theorem dropLineNumbers_before (r : LineRange) (s : List Char) :
    dropLineNumbers (r.before ++ s) = s := by
  have hcolon : ∀ n, ':' ∉ Text.decimal n := Text.not_mem_decimal (by decide)
  have hbefore : r.before ++ s =
      Text.decimal r.first ++ ':' :: (Text.decimal r.last ++ ':' :: s) := by
    simp [LineRange.before]
  have hdigit : ((r.before ++ s).head?.map isDigit).getD false = true := by
    obtain ⟨c, digits, hdigits⟩ := List.exists_cons_of_ne_nil (Text.isWord_decimal r.first).1
    have hc : c.isDigit = true := Text.isDigit_of_mem_decimal (n := r.first) (by simp [hdigits])
    rw [hbefore, hdigits]
    exact hc
  rw [dropLineNumbers, if_pos hdigit, hbefore, Text.cut?_append_cons (hcolon _)]
  simp only [Text.cut?_append_cons (hcolon _)]

/-- No type begins with a digit. -/
theorem ValueType.unnumbered_text (t : ValueType) (s : List Char) : Unnumbered (t.text ++ s) := by
  obtain ⟨element, dimensions⟩ := t
  have helement : Unnumbered element.text := by
    cases element with
    | primitive p => cases p <;> decide
    | type c => exact c.unnumbered
  obtain ⟨c, rest, hcons⟩ := List.exists_cons_of_ne_nil element.text_ne_nil
  rw [hcons] at helement
  rw [text, hcons]
  exact helement

theorem ReturnType.unnumbered_text (t : ReturnType) (s : List Char) : Unnumbered (t.text ++ s) := by
  cases t with
  | none => rfl
  | some t => exact t.unnumbered_text s

theorem memberLine_field (type : ValueType) (name renamed : Name) :
    memberLine owner (type.text ++ ' ' :: name.chars) renamed.chars =
      .ok ((Member.field type name renamed).records owner) := by
  have hcut := Text.cut?_append_cons (not_mem_of_isWord type.isWord_text) name.chars
  have hopen : '(' ∉ name.chars := fun h => name.unmarked '(' h (by decide)
  have htrim : Text.trim name.chars = name.chars := Text.trim_of_isWord name.isWord
  rw [memberLine, dropLineNumbers_of_unnumbered (type.unnumbered_text _), hcut]
  simp only [htrim, Text.cut?_of_not_mem hopen, type.descriptorOf_text]
  simp [Member.records, fieldRecord]

theorem dropLineNumbers_typed (m : Method) (s : List Char) :
    dropLineNumbers ((Member.method m).typed ++ s) = m.returned.text ++ s := by
  rw [Member.typed]
  cases m.compiled with
  | none => exact dropLineNumbers_of_unnumbered (m.returned.unnumbered_text s)
  | some r => rw [Option.map_some, Option.getD_some, List.append_assoc, dropLineNumbers_before]

/-- Only the name of a method of the class holds no dot and begins with no `<`. -/
theorem records_callee (m : Method) :
    (if m.callee.text.contains '.' || m.callee.text.head? = some '<' then .ok []
      else .ok [methodRecord owner (some (methodDescriptor m.arguments m.returned))
        [m.callee.text, m.renamed.chars]]) =
      (.ok ((Member.method m).records owner) : Except Fault (List Record)) := by
  rw [Member.records]
  cases m.callee with
  | own name simple ordinary =>
    have hdot : name.chars.contains '.' = false := by simpa [Word.chars] using simple
    have hhead : decide (name.chars.head? = some '<') = false := decide_eq_false ordinary
    rw [Callee.text, hdot, hhead, Bool.or_false, if_neg Bool.false_ne_true]
    simp [methodRecord]
  | special name special =>
    have hhead : decide (name.chars.head? = some '<') = true := decide_eq_true special
    rw [Callee.text, hhead, Bool.or_true, if_pos rfl]
  | inlined owner name =>
    have hdot : (owner.dotted.chars ++ '.' :: name.chars).contains '.' = true := by simp
    rw [Callee.text, hdot, Bool.true_or, if_pos rfl]

theorem memberLine_method (m : Method) :
    memberLine owner ((Member.method m).typed ++ ' ' :: (Member.method m).named) m.renamed.chars =
      .ok ((Member.method m).records owner) := by
  have htype := Text.cut?_append_cons (not_mem_of_isWord m.returned.isWord_text)
    (Member.method m).named
  have htrim := Text.trim_of_isWord (Member.isWord_named (.method m))
  have hcallee : ∀ c ∈ marks, c ∉ m.callee.text := fun c hc hmem => (Callee.mem_text hmem).2 hc
  have hopen := Text.cut?_append_cons (hcallee '(' (by decide)) (argumentsText m.arguments ++
    ')' :: (m.source.map LineRange.behind).getD [])
  have hclosed : m.callee.text.contains ')' = false := by
    simpa using hcallee ')' (by decide)
  have harguments : ')' ∉ argumentsText m.arguments := fun hmem => (mem_argumentsText hmem).2 rfl
  have hclose := Text.cut?_append_cons harguments ((m.source.map LineRange.behind).getD [])
  rw [memberLine, dropLineNumbers_typed, htype]
  simp only [htrim]
  rw [Member.named, hopen]
  simp only [hclosed, Bool.false_eq_true, if_false, hclose, methodDescriptorOf_text]
  exact records_callee m

theorem memberLine_eq (m : Member) :
    memberLine owner (m.typed ++ ' ' :: m.named) m.renamed.chars = .ok (m.records owner) := by
  cases m with
  | field type name renamed => exact memberLine_field type name renamed
  | method m => exact memberLine_method m

end Lines

section Steps

variable (m : Member)

theorem Member.unmarked_typed : '#' ∉ m.typed := by
  have hreturned : ∀ t : ReturnType, '#' ∉ t.text := by
    intro t
    cases t with
    | none => decide
    | some t => exact fun h => absurd ((ValueType.mem_text h).2 (by decide)) (by decide)
  cases m with
  | field type name renamed => exact hreturned (some type)
  | method m =>
    have hdecimal : ∀ n, '#' ∉ Text.decimal n := Text.not_mem_decimal (by decide)
    cases hcompiled : m.compiled with
    | none => simpa [typed, hcompiled] using hreturned m.returned
    | some r => simp [typed, hcompiled, LineRange.before, hdecimal, hreturned]

/-- The line of a member is indented, and no remark. -/
theorem Member.isRemark_line : isRemark m.line = false := by
  obtain ⟨c, rest, htyped⟩ := List.exists_cons_of_ne_nil m.isWord_typed.1
  have hc : c ∈ m.typed := by simp [htyped]
  have hindent : "    ".toList = List.replicate 4 ' ' := rfl
  have hline : m.line = List.replicate 4 ' ' ++ c :: (rest ++ ' ' :: m.named ++
      " -> ".toList ++ m.renamed.chars) := by
    rw [line, htyped, hindent]
    simp
  rw [hline, isRemark_replicate_append (by decide) (m.isWord_typed.2 c hc)]
  exact ne_of_mem_of_not_mem hc m.unmarked_typed

theorem Member.isBlank_head?_line : (m.line.head?.map Text.isBlank).getD false = true := rfl

theorem trim_indented {s : List Char} (hfirst : ∀ c ∈ s.head?, Text.isBlank c = false)
    (hlast : ∀ c ∈ s.getLast?, Text.isBlank c = false) : Text.trim ("    ".toList ++ s) = s :=
  Text.trim_replicate_append (show Text.isBlank ' ' = true by decide) 4 hfirst hlast

/-- What stands between the indentation and the arrow. -/
theorem Member.trim_left :
    Text.trim ("    ".toList ++ (m.typed ++ ' ' :: m.named)) = m.typed ++ ' ' :: m.named := by
  refine trim_indented (fun c hc => ?_) fun c hc => ?_
  · rw [List.head?_append_of_ne_nil _ m.isWord_typed.1] at hc
    exact m.isWord_typed.2 c (List.mem_of_mem_head? hc)
  · rw [List.getLast?_append_cons, List.getLast?_cons_of_ne_nil m.isWord_named.1] at hc
    exact m.isWord_named.2 c (List.mem_of_getLast? hc)

/-- The line of a member that is parted is read as its records. -/
theorem step_line {m : Member} (h : m.Parted) (owner : String) :
    step (some owner) m.line = .ok (some owner, m.records owner) := by
  have htrim : Text.trim m.renamed.chars = m.renamed.chars := Text.trim_of_isWord m.renamed.isWord
  rw [step, m.isRemark_line, if_neg Bool.false_ne_true, ← mark, m.cutAt?_line h]
  simp only [m.trim_left, htrim, m.isBlank_head?_line, if_true, memberLine_eq]
  rfl

/-- If a member is not parted, its line is cut before there are a type and a name. -/
theorem Member.cutAt?_line_of_not_parted (h : ¬m.Parted) : ∃ left right,
    Text.cutAt? mark m.line = some (left, right) ∧
      Text.cut? ' ' (dropLineNumbers (Text.trim left)) = none := by
  rw [m.parted_iff] at h
  by_cases htyped : m.typed = arrow
  · refine ⟨"   ".toList, m.named ++ ' ' :: (arrow ++ ' ' :: m.renamed.chars), ?_, by decide⟩
    rw [line_eq, cutAt?_indented, htyped, cutAt?_arrow]
    rfl
  · have hnamed : m.named = arrow := not_not.1 fun hnamed => h ⟨htyped, hnamed⟩
    refine ⟨"    ".toList ++ m.typed, arrow ++ ' ' :: m.renamed.chars, ?_, ?_⟩
    · rw [line_eq, cutAt?_indented, cutAt?_word (not_mem_of_isWord m.isWord_typed) htyped, hnamed,
        cutAt?_arrow]
      simp
    · cases m with
      | field type name renamed =>
        have htrim : Text.trim ("    ".toList ++ type.text) = type.text :=
          trim_indented (fun c hc => type.isWord_text.2 c (List.mem_of_mem_head? hc))
            fun c hc => type.isWord_text.2 c (List.mem_of_getLast? hc)
        have hdrop : dropLineNumbers type.text = type.text :=
          dropLineNumbers_of_unnumbered (by simpa using type.unnumbered_text [])
        rw [typed, htrim, hdrop, Text.cut?_of_not_mem (not_mem_of_isWord type.isWord_text)]
      | method m =>
        have hopen : '(' ∈ (Member.method m).named := by simp [named]
        exact absurd hnamed (ne_arrow_of_mem hopen (by decide))

theorem step_line_of_not_parted {m : Member} (h : ¬m.Parted) (owner : Option String) :
    ∃ fault, step owner m.line = .error fault := by
  obtain ⟨left, right, hcut, hblank⟩ := m.cutAt?_line_of_not_parted h
  rw [step, m.isRemark_line, if_neg Bool.false_ne_true, ← mark, hcut]
  simp only [m.isBlank_head?_line, if_true]
  cases owner with
  | none => exact ⟨_, rfl⟩
  | some name =>
    refine ⟨.expected "a type and a name", ?_⟩
    simp only [memberLine, hblank]
    rfl

end Steps

section Classes

variable (c : Class)

theorem Class.line_eq :
    c.line = c.old.dotted.chars ++ ' ' :: (arrow ++ ' ' :: (c.renamed.dotted.chars ++ [':'])) := by
  simp [line, arrow]

/-- The line of a class begins with no blank, and no number sign. -/
theorem Class.exists_line_cons : ∃ first rest, c.line = first :: rest ∧
    Text.isBlank first = false ∧ first ≠ '#' := by
  obtain ⟨first, rest, hold⟩ := List.exists_cons_of_ne_nil c.old.dotted.chars_ne_nil
  have hfirst : first ∈ c.old.dotted.chars := by simp [hold]
  have hunmarked : first ∉ marks := c.old.dotted.unmarked first hfirst
  rw [line_eq, hold]
  exact ⟨first, _, rfl, c.old.dotted.isWord.2 first hfirst, fun heq => hunmarked (heq ▸ by decide)⟩

theorem Class.isRemark_line : isRemark c.line = false := by
  obtain ⟨first, rest, hline, hblank, hsign⟩ := c.exists_line_cons
  rw [hline]
  exact isRemark_replicate_append (show Text.isBlank ' ' = true by decide) hblank hsign 0 rest

theorem Class.isBlank_head?_line : (c.line.head?.map Text.isBlank).getD false = false := by
  obtain ⟨first, rest, hline, hblank, -⟩ := c.exists_line_cons
  rw [hline]
  exact hblank

theorem TypeName.nameOrNone_slashed (n : TypeName) :
    nameOrNone n.slashed.toList = some n.slashed := by
  have hne : n.slashed.toList ≠ [] := by
    rw [← replace_dotted, Text.replace]
    exact fun h => n.dotted.chars_ne_nil (List.map_eq_nil_iff.1 h)
  rw [nameOrNone, if_neg (by simpa using hne), String.ofList_toList]

/-- The line of a class is read as the class, in any other class or none. -/
theorem step_classLine (owner : Option String) :
    step owner c.line =
      .ok (some c.old.slashed, [⟨.type, [some c.old.slashed, some c.renamed.slashed], none⟩]) := by
  have hrenamed : Text.IsWord (c.renamed.dotted.chars ++ [':']) :=
    ⟨by simp, List.forall_mem_append.2 ⟨c.renamed.dotted.isWord.2,
      List.forall_mem_singleton.2 (by decide)⟩⟩
  have hcut : Text.cutAt? mark c.line =
      some (c.old.dotted.chars, c.renamed.dotted.chars ++ [':']) := by
    rw [Class.line_eq, cutAt?_append (not_mem_of_isWord c.old.dotted.isWord_chars), cutAt?_arrow]
    simp
  have htrim : Text.trim c.old.dotted.chars = c.old.dotted.chars :=
    Text.trim_of_isWord c.old.dotted.isWord
  rw [step, c.isRemark_line, if_neg Bool.false_ne_true, ← mark, hcut]
  simp only [htrim, Text.trim_of_isWord hrenamed, c.isBlank_head?_line, Bool.false_eq_true,
    if_false, Text.stripEnd?_append, replace_dotted, String.ofList_toList]
  simp [typeRecord, TypeName.nameOrNone_slashed]

end Classes

section Ends

/-- A text that holds no blanks but spaces. -/
def Spaced (s : List Char) : Prop := ∀ c ∈ s, Text.isBlank c = true → c = ' '

theorem Spaced.isLine {line : List Char} (h : Spaced line) : IsLine line := by
  refine ⟨fun hmem => ?_, fun hlast => ?_⟩
  · exact absurd (h '\n' hmem (by decide)) (by decide)
  · exact absurd (h '\r' (List.mem_of_getLast? hlast) (by decide)) (by decide)

theorem spaced_of_isWord {w : List Char} (h : Text.IsWord w) : Spaced w :=
  fun c hc hblank => absurd ((h.2 c hc).symm.trans hblank) Bool.false_ne_true

theorem Spaced.append {s t : List Char} (hs : Spaced s) (ht : Spaced t) : Spaced (s ++ t) :=
  List.forall_mem_append.2 ⟨hs, ht⟩

theorem Spaced.cons {s : List Char} (h : Spaced s) : Spaced (' ' :: s) :=
  List.forall_mem_cons.2 ⟨fun _ => rfl, h⟩

theorem spaced_arrow : Spaced arrow := spaced_of_isWord (by decide)

theorem Member.isLine_line (m : Member) : IsLine m.line := by
  have hindent : Spaced "   ".toList := fun _ hc _ => List.eq_of_mem_replicate (n := 3) hc
  have hrenamed : Spaced (' ' :: m.renamed.chars) := (spaced_of_isWord m.renamed.isWord_chars).cons
  have hnamed : Spaced (m.named ++ ' ' :: (arrow ++ ' ' :: m.renamed.chars)) :=
    (spaced_of_isWord m.isWord_named).append (spaced_arrow.append hrenamed).cons
  rw [line_eq]
  exact (hindent.append ((spaced_of_isWord m.isWord_typed).append hnamed.cons).cons).isLine

theorem Class.isLine_line (c : Class) : IsLine c.line := by
  have hcolon : Text.IsWord [':'] := by decide
  have hrenamed : Spaced (c.renamed.dotted.chars ++ [':']) :=
    (spaced_of_isWord c.renamed.dotted.isWord_chars).append (spaced_of_isWord hcolon)
  rw [line_eq]
  exact ((spaced_of_isWord c.old.dotted.isWord_chars).append
    (spaced_arrow.append hrenamed.cons).cons).isLine

end Ends

end JarRemap.Format.Proguard

/-!
## Obfuscation logs are read as they were written

The text of a log is read back as what the log says, just if the arrow of each line is the first one
between blanks: another one is a class that begins the line of a member, or the name of a field.
Every other arrow is part of a longer word.
-/

namespace JarRemap.Format.Proguard

theorem Log.isLine_lines (log : Log) : ∀ line ∈ log.flatMap Class.lines, IsLine line := by
  intro line hline
  obtain ⟨c, -, hline⟩ := List.mem_flatMap.1 hline
  rcases List.mem_cons.1 hline with rfl | hline
  · exact c.isLine_line
  · obtain ⟨m, -, rfl⟩ := List.mem_map.1 hline
    exact m.isLine_line

/-- A class whose members are parted is read as its records. -/
theorem Class.reads_lines {c : Class} (h : ∀ m ∈ c.members, m.Parted) :
    Reads step (fun _ => True) c.lines c.records fun _ => True := by
  have hmembers : Reads step (· = some c.old.slashed) (c.members.map Member.line)
      (c.members.flatMap (Member.records c.old.slashed)) (· = some c.old.slashed) := by
    rw [List.map_eq_flatMap]
    refine reads_flatMap fun m hm => reads_line ?_
    rintro owner rfl
    exact ⟨_, step_line (h m hm) _, rfl⟩
  have hfirst : Reads step (fun _ => True) [c.line]
      [⟨.type, [some c.old.slashed, some c.renamed.slashed], none⟩] (· = some c.old.slashed) :=
    reads_line fun owner _ => ⟨_, step_classLine c owner, rfl⟩
  exact (hfirst.append hmembers).weaken fun _ _ => trivial

theorem Member.length_names {owner : String} {m : Member} {r : Record} (h : r ∈ m.records owner) :
    r.names.length = 2 := by
  cases m with
  | field type name renamed =>
    obtain rfl := List.mem_singleton.1 h
    rfl
  | method m =>
    rw [records] at h
    cases hcallee : m.callee with
    | own name _ _ =>
      rw [hcallee] at h
      obtain rfl := List.mem_singleton.1 h
      rfl
    | special name _ => simp [hcallee] at h
    | inlined owner name => simp [hcallee] at h

/-- Every record of a log has a readable and an official name. -/
theorem Log.length_names {log : Log} {r : Record} (h : r ∈ log.flatMap Class.records) :
    r.names.length = 2 := by
  obtain ⟨c, -, hr⟩ := List.mem_flatMap.1 h
  rcases List.mem_cons.1 hr with rfl | hr
  · rfl
  · obtain ⟨m, -, hr⟩ := List.mem_flatMap.1 hr
    exact m.length_names hr

/-- A log that is read has only members that are parted: each other line is an error. -/
theorem parted_of_readLines {log : Log} {gaps : List (List Remark)} {records : List Record}
    (h : readLines step none (Text.numberedLines (log.print gaps)) = .ok records) :
    log.Parted := by
  intro c hc m hm
  by_contra hnot
  obtain ⟨last, hreading⟩ := exists_reading h
  have hremark : ∀ r : Remark, IsLine r.line := Remark.isLine
  have hline : m.line ∈ (Text.numberedLines (log.print gaps)).map Prod.snd := by
    rw [Text.map_snd_numberedLines, Log.print, lines_unlines_spread log.isLine_lines hremark]
    refine mem_spread_of_mem (List.mem_flatMap.2 ⟨c, hc, ?_⟩)
    exact List.mem_cons_of_mem _ (List.mem_map_of_mem hm)
  obtain ⟨state, result, hstep⟩ := hreading.exists_step hline
  obtain ⟨fault, hfault⟩ := step_line_of_not_parted hnot state
  rw [hfault] at hstep
  cases hstep

theorem readLines_print {log : Log} (h : log.Parted) (gaps : List (List Remark)) :
    readLines step none (Text.numberedLines (log.print gaps)) = .ok log.source.records := by
  have hremark : ∀ (r : Remark) s, step s r.line = .ok (s, []) := by
    intro r s
    rw [step, if_pos r.isRemark_line]
  exact readLines_unlines log.isLine_lines (reads_flatMap fun c hc => Class.reads_lines (h c hc))
    trivial Remark.isLine hremark (Text.map_snd_numberedLines _)

/-- The text of a log is read just if the members of the log are parted, and then as what the log
says. -/
theorem parse_print_eq_ok_iff (log : Log) (gaps : List (List Remark)) (source : Source) :
    parse (log.print gaps) = .ok source ↔ log.Parted ∧ source = log.source := by
  have hsource : (Source.start Namespace.mojmap [Namespace.official]).pushAll log.source.records =
      log.source := pushAll_start fun r hr => Log.length_names hr
  constructor
  · intro h
    rw [parse] at h
    cases hread : readLines step none (Text.numberedLines (log.print gaps)) with
    | error fault =>
      rw [hread] at h
      cases h
    | ok records =>
      have hparted := parted_of_readLines hread
      rw [readLines_print hparted] at h
      exact ⟨hparted, hsource ▸ (Except.ok.inj h).symm⟩
  · rintro ⟨hparted, rfl⟩
    rw [parse, readLines_print hparted]
    exact congrArg Except.ok hsource

/-- A class with a field that is named like the arrow. -/
def arrowField : Log :=
  [{ old := ⟨["A"], by decide, by decide⟩
     renamed := ⟨["a"], by decide, by decide⟩
     members := [.field ⟨.primitive .int, 0⟩ ⟨⟨"->", by decide⟩, by decide⟩
       ⟨⟨"b", by decide⟩, by decide⟩] }]

/-- The line of such a field is cut behind its type. -/
theorem parse_arrowField :
    arrowField.print [] = "A -> a:\n    int -> -> b\n".toList ∧
      parse (arrowField.print []) = .error ⟨2, .expected "a type and a name"⟩ := by
  decide

end JarRemap.Format.Proguard
