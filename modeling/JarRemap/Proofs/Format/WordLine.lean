import JarRemap.Proofs.Format.LineReader
import JarRemap.Proofs.Text.Words

/-!
# Lines of words

What the formats are written from whose lines are words at a depth: words, lines of them, and the
lines that hold no more than a remark or the name of a package. Lines that are written one below the
other are read one by one, each as the words it was written from.
-/

namespace JarRemap.Format

section Words

/-- A text that can stand as one word of a line. -/
structure Word where
  text : String
  isWord : Text.IsWord text.toList

namespace Word

def chars (w : Word) : List Char := w.text.toList

theorem isWord_chars (w : Word) : Text.IsWord w.chars := w.isWord

theorem chars_ne_nil (w : Word) : w.chars ≠ [] := w.isWord.1

theorem not_mem_chars (w : Word) {c : Char} (h : Text.isBlank c = true) : c ∉ w.chars :=
  fun hmem => Bool.false_ne_true ((w.isWord.2 c hmem).symm.trans h)

@[simp] theorem ofList_chars (w : Word) : String.ofList w.chars = w.text := String.ofList_toList

@[simp] theorem nameOrNone_chars (w : Word) : nameOrNone w.chars = some w.text := by
  rw [nameOrNone, if_neg (by simpa using w.chars_ne_nil), ofList_chars]

theorem map_nameOrNone (words : List Word) :
    (words.map chars).map nameOrNone = words.map fun w => some w.text := by
  simp [Function.comp_def]

theorem typeRecord_chars (words : List Word) :
    typeRecord (words.map chars) = ⟨.type, words.map fun w => some w.text, none⟩ := by
  rw [typeRecord, map_nameOrNone]

theorem fieldRecord_chars (owner : String) (desc : Option Word) (words : List Word) :
    fieldRecord owner (desc.map chars) (words.map chars) =
      ⟨.field owner (desc.map text), words.map fun w => some w.text, none⟩ := by
  rw [fieldRecord, map_nameOrNone, Option.map_map]
  simp [Function.comp_def]

theorem methodRecord_chars (owner : String) (desc : Word) (words : List Word) :
    methodRecord owner (some desc.chars) (words.map chars) =
      ⟨.method owner (some desc.text), words.map fun w => some w.text, none⟩ := by
  rw [methodRecord, map_nameOrNone, Option.map_some, ofList_chars]

theorem isWord_index (index : UInt16) :
    Text.IsWord (String.ofList (Text.decimal index.toNat)).toList := by
  rw [String.toList_ofList]
  exact Text.isWord_decimal _

def ofIndex (index : UInt16) : Word where
  text := String.ofList (Text.decimal index.toNat)
  isWord := isWord_index index

@[simp] theorem chars_ofIndex (index : UInt16) :
    (ofIndex index).chars = Text.decimal index.toNat := String.toList_ofList

/-- Two words as one, with a character between them that is not blank. -/
def join (a : Word) (c : Char) (b : Word) (hc : Text.isBlank c = false) : Word where
  text := String.ofList (a.chars ++ c :: b.chars)
  isWord := by
    rw [String.toList_ofList]
    refine ⟨by simp, List.forall_mem_append.2 ⟨a.isWord.2, List.forall_mem_cons.2 ⟨hc, b.isWord.2⟩⟩⟩

@[simp] theorem chars_join (a : Word) (c : Char) (b : Word) (hc : Text.isBlank c = false) :
    (join a c b hc).chars = a.chars ++ c :: b.chars := String.toList_ofList

end Word

end Words

section Lines

/-- A text that is read as one line. -/
def IsLine (line : List Char) : Prop := '\n' ∉ line ∧ line.getLast? ≠ some '\r'

instance (line : List Char) : Decidable (IsLine line) := inferInstanceAs (Decidable (_ ∧ _))

/-- A line of words at a depth. -/
def wordLine (depth : Nat) (words : List Word) : List Char :=
  List.replicate depth '\t' ++ [' '].intercalate (words.map Word.chars)

variable (depth : Nat) (word : Word) (words : List Word)

/-- A line is cut into the words that it was written from. -/
theorem words_wordLine : Text.words (wordLine depth words) = words.map Word.chars := by
  rw [wordLine, Text.words_replicate_append (by decide), Text.words_intercalate (by decide)]
  intro w hw
  obtain ⟨word, -, rfl⟩ := List.mem_map.1 hw
  exact word.isWord

theorem not_mem_wordLine {x : Char} (htab : x ≠ '\t') (hspace : x ≠ ' ')
    (h : ∀ word ∈ words, x ∉ word.chars) : x ∉ wordLine depth words := by
  rw [wordLine, List.mem_append, not_or]
  refine ⟨fun hx => htab (List.eq_of_mem_replicate hx), Text.not_mem_intercalate hspace ?_⟩
  exact List.forall_mem_map.2 h

theorem isLine_wordLine : IsLine (wordLine depth words) := by
  have habsent : ∀ x, Text.isBlank x = true → x ≠ '\t' → x ≠ ' ' → x ∉ wordLine depth words :=
    fun x hx htab hspace =>
      not_mem_wordLine depth words htab hspace fun word _ => word.not_mem_chars hx
  refine ⟨habsent '\n' (by decide) (by decide) (by decide), fun hlast => ?_⟩
  exact habsent '\r' (by decide) (by decide) (by decide) (List.mem_of_getLast? hlast)

/-- Behind its tabs a line begins with its first word, and so with no blank. -/
theorem exists_wordLine_cons : ∃ c rest, word.chars.head? = some c ∧ Text.isBlank c = false ∧
    wordLine depth (word :: words) = List.replicate depth '\t' ++ c :: rest := by
  obtain ⟨c, tail, hchars⟩ := List.exists_cons_of_ne_nil word.chars_ne_nil
  have hc : Text.isBlank c = false := word.isWord.2 c (show c ∈ word.chars by simp [hchars])
  obtain ⟨rest, hrest⟩ := Text.exists_intercalate_cons [' '] word.chars (words.map Word.chars)
  refine ⟨c, tail ++ rest, by rw [hchars]; rfl, hc, ?_⟩
  rw [wordLine, List.map_cons, hrest, hchars, List.cons_append]

/-- The depth of a line is the one that it was written at. -/
theorem depth_wordLine : Text.depth (wordLine depth (word :: words)) = depth := by
  obtain ⟨c, rest, -, hc, hline⟩ := exists_wordLine_cons depth word words
  rw [hline]
  refine Text.depth_replicate_append depth ?_
  rw [Text.depth, Text.depthFrom.eq_def]
  split
  · next heq =>
    rw [(List.cons.inj heq).1] at hc
    exact absurd hc (by decide)
  · next heq =>
    rw [(List.cons.inj heq).1] at hc
    exact absurd hc (by decide)
  · rfl

theorem isRemark_replicate_append {blank c : Char} (hblank : Text.isBlank blank = true)
    (hc : Text.isBlank c = false) (hne : c ≠ '#') (n : Nat) (rest : List Char) :
    isRemark (List.replicate n blank ++ c :: rest) = false := by
  rw [isRemark, Text.trimStart_replicate_append hblank, Text.trimStart,
    List.dropWhile_cons_of_neg (by rw [hc]; exact Bool.false_ne_true)]
  simpa using hne

/-- Only a number sign before its first word makes a remark of a line. -/
theorem isRemark_wordLine (h : word.chars.head? ≠ some '#') :
    isRemark (wordLine depth (word :: words)) = false := by
  obtain ⟨c, rest, hhead, hc, hline⟩ := exists_wordLine_cons depth word words
  have hne : c ≠ '#' := fun heq => h (heq ▸ hhead)
  rw [hline, isRemark_replicate_append (by decide) hc hne]

end Lines

section Remarks

/-- A text that holds nothing but blanks. -/
def IsBlank (s : List Char) : Prop := ∀ c ∈ s, Text.isBlank c = true

instance (s : List Char) : Decidable (IsBlank s) :=
  decidable_of_iff (s.all Text.isBlank = true) List.all_eq_true

/-- A line that holds blanks at most, or a note behind a number sign. -/
structure Remark where
  blanks : String
  note : Option String
  blank : IsBlank blanks.toList
  isLine : IsLine (blanks.toList ++ (note.map fun text => '#' :: text.toList).getD [])

def Remark.line (r : Remark) : List Char :=
  r.blanks.toList ++ (r.note.map fun text => '#' :: text.toList).getD []

theorem Remark.isRemark_line (r : Remark) : isRemark r.line = true := by
  rw [isRemark, line, Text.trimStart, List.dropWhile_append_of_pos r.blank]
  cases r.note <;> rfl

end Remarks

section Packages

/-- The name of a package, which ends in a slash, and what follows it on its line. -/
structure Package where
  name : Word
  rest : List Word
  unmarked : name.text.toList.head? ≠ some '#'
  slashed : name.text.toList.getLast? = some '/'

def Package.line (p : Package) : List Char := wordLine 0 (p.name :: p.rest)

/-- Blocks of lines with packages before each of them, and behind the last one. -/
def packaged (packages : List (List Package)) (blocks : List (List (List Char))) :
    List (List Char) :=
  (spread (packages.map (List.map fun p => [p.line])) blocks).flatten

theorem reads_packaged {σ α : Type} {step : Step σ} {P : σ → Prop} {items : List α}
    {lines : α → List (List Char)} {records : α → List Record}
    (hpackage : ∀ p : Package, Reads step P [p.line] [] P)
    (h : ∀ item ∈ items, Reads step P (lines item) (records item) P)
    (packages : List (List Package)) :
    Reads step P (packaged packages (items.map lines)) (items.flatMap records) P := by
  refine reads_spread (fun gap hgap block hblock => ?_) h
  obtain ⟨fillers, -, rfl⟩ := List.mem_map.1 hgap
  obtain ⟨p, -, rfl⟩ := List.mem_map.1 hblock
  exact hpackage p

theorem isLine_packaged {packages : List (List Package)} {blocks : List (List (List Char))}
    (h : ∀ block ∈ blocks, ∀ line ∈ block, IsLine line) :
    ∀ line ∈ packaged packages blocks, IsLine line := by
  intro line hline
  obtain ⟨block, hblock, hline⟩ := List.mem_flatten.1 hline
  rcases mem_spread hblock with ⟨gap, hgap, hblock⟩ | hblock
  · obtain ⟨fillers, -, rfl⟩ := List.mem_map.1 hgap
    obtain ⟨p, -, rfl⟩ := List.mem_map.1 hblock
    rw [List.mem_singleton.1 hline]
    exact isLine_wordLine 0 _
  · exact h block hblock line hline

end Packages

section Texts

/-- The text of some lines. -/
def unlines (lines : List (List Char)) : List Char := lines.flatMap fun line => line ++ ['\n']

theorem lines_unlines {lines : List (List Char)} (h : ∀ line ∈ lines, IsLine line) :
    Text.lines (unlines lines) = lines := Text.lines_flatMap_of_getLast? h

/-- The lines of a text have one number more below another line. -/
theorem numberedLines_cons {first : List Char} (h : IsLine first) (text : List Char) :
    Text.numberedLines (first ++ '\n' :: text) =
      (1, first) :: (Text.numberedLines text).map fun line => (line.1 + 1, line.2) := by
  have hlines : Text.lines (first ++ '\n' :: text) = first :: Text.lines text := by
    rw [Text.lines, Text.linesFrom_append h.1, List.append_nil,
      Text.dropReturn_of_head? (by simpa using h.2), List.reverse_reverse]
    rfl
  rw [Text.numberedLines, hlines, List.zipIdx_cons', List.map_cons, List.map_map,
    Text.numberedLines, List.map_map]
  rfl

theorem exists_numberedLines_cons {first : List Char} (h : IsLine first) (text : List Char) :
    ∃ below, Text.numberedLines (first ++ '\n' :: text) = (1, first) :: below ∧
      below.map Prod.snd = Text.lines text := by
  refine ⟨_, numberedLines_cons h text, ?_⟩
  rw [List.map_map, ← Text.map_snd_numberedLines]
  rfl

section Fillers

variable {α : Type} {filler : α → List Char} {gaps : List (List α)} {lines : List (List Char)}

theorem forall_mem_map_filler {p : List Char → Prop} (h : ∀ a, p (filler a)) :
    ∀ gap ∈ gaps.map (List.map filler), ∀ line ∈ gap, p line := by
  intro gap hgap line hline
  obtain ⟨fillers, -, rfl⟩ := List.mem_map.1 hgap
  obtain ⟨a, -, rfl⟩ := List.mem_map.1 hline
  exact h a

theorem lines_unlines_spread (hlines : ∀ line ∈ lines, IsLine line)
    (hfiller : ∀ a, IsLine (filler a)) :
    Text.lines (unlines (spread (gaps.map (List.map filler)) lines)) =
      spread (gaps.map (List.map filler)) lines := by
  refine lines_unlines fun line hline => ?_
  rcases mem_spread hline with ⟨gap, hgap, hline⟩ | hline
  · exact forall_mem_map_filler hfiller gap hgap line hline
  · exact hlines line hline

/-- Lines that can be read are read from their text, whatever stands between them that changes
nothing. -/
theorem readLines_unlines {σ : Type} {step : Step σ} {P Q : σ → Prop} {s : σ}
    {records : List Record} (hlines : ∀ line ∈ lines, IsLine line)
    (h : Reads step P lines records Q) (hs : P s) (hfiller : ∀ a, IsLine (filler a))
    (hstep : ∀ a s, step s (filler a) = .ok (s, [])) {numbered : List (Nat × List Char)}
    (hnumbered : numbered.map Prod.snd =
      Text.lines (unlines (spread (gaps.map (List.map filler)) lines))) :
    readLines step s numbered = .ok records := by
  obtain ⟨last, hread, -⟩ := h s hs
  have hspread : Reading step s (spread (gaps.map (List.map filler)) lines) records last :=
    hread.spread (forall_mem_map_filler fun a s => hstep a s)
  rw [← lines_unlines_spread hlines hfiller, ← hnumbered] at hspread
  exact hspread.readLines_eq

end Fillers

/-- Records with a name for each namespace are kept as they are. -/
theorem pushAll_start {key : String} {others : List String} {records : List Record}
    (h : ∀ r ∈ records, r.names.length = others.length + 1) :
    (Source.start key others).pushAll records = ⟨key, others, key :: others, records⟩ := by
  have hfit : records.map (Record.fit (others.length + 1)) = records := by
    rw [List.map_congr_left fun r hr => Record.fit_of_length (h r hr), List.map_id']
  simp [Source.pushAll, Source.start, Source.width, hfit]

end Texts

end JarRemap.Format
