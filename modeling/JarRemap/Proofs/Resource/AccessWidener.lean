import JarRemap.Proofs.Resource.Line
import JarRemap.Proofs.Text.Utf8
import JarRemap.Resource.AccessWidener

/-!
# Access wideners survive every chain of hops

An access widener is accepted if its lines with words are a header that names the namespace it is
expected in, and entries. A renamed line is accepted in its turn, so that two hops are one, if they
are for the symbols of the file: an entry is written as the access it had and the renamed symbol,
and read as them again.
-/

namespace JarRemap.Resource.AccessWidener

open Text

/-! ### Entries -/

/-- What an entry is about. -/
inductive Subject where
  | type (name : String)
  | field (owner name desc : String)
  | method (owner name desc : String)
deriving DecidableEq, Repr

namespace Subject

/-- The word that tells the kinds of entries apart. -/
def kind : Subject → String
  | type _ => "class"
  | field .. => "field"
  | method .. => "method"

/-- The words a subject is written as. -/
def words : Subject → List (List Char)
  | type name => [name.toList]
  | field owner name desc => [owner.toList, name.toList, desc.toList]
  | method owner name desc => [owner.toList, name.toList, desc.toList]

/-- A subject under its new names. -/
def renamed (d : Dictionary) : Subject → Subject
  | type name => .type (d.newClass?.image name)
  | field owner name desc =>
      .field (d.newClass?.image owner) ((d.newField? owner name (some desc)).getD name)
        (d.newDescriptor desc)
  | method owner name desc =>
      .method (d.newClass?.image owner) ((d.newMethod? owner name desc).getD name)
        (d.newDescriptor desc)

@[simp] theorem kind_renamed (d : Dictionary) (s : Subject) : (s.renamed d).kind = s.kind := by
  cases s <;> rfl

end Subject

/-- Whether words are an entry. -/
def IsEntry : List (List Char) → Prop
  | [_, kind, _] => kind = "class".toList
  | [_, kind, _, _, _] => kind = "method".toList ∨ kind = "field".toList
  | _ => False

/-- The words of an entry. -/
def entryWords (access : List Char) (s : Subject) : List (List Char) := access :: s.kind.toList :: s.words

theorem subject_eq_of_entryWords_eq {access access' : List Char} {s s' : Subject}
    (h : entryWords access s = entryWords access' s') : s = s' := by
  rw [entryWords, entryWords, List.cons.injEq, List.cons.injEq, String.toList_inj] at h
  obtain ⟨-, hkind, hwords⟩ := h
  cases s <;> cases s'
  case type.type => simpa [Subject.words, String.toList_inj] using hwords
  case field.field => simpa [Subject.words, String.toList_inj] using hwords
  case method.method => simpa [Subject.words, String.toList_inj] using hwords
  all_goals exact absurd hkind (by simp [Subject.kind])

/-- Entries are the words of an access and a subject. -/
theorem isEntry_iff {words : List (List Char)} :
    IsEntry words ↔ ∃ access s, words = entryWords access s := by
  constructor
  · intro h
    unfold IsEntry at h
    split at h
    · next access kind name =>
      exact ⟨access, .type (.ofList name), by simp [entryWords, Subject.kind, Subject.words, h]⟩
    · next access kind owner name desc =>
      rcases h with h | h
      · exact ⟨access, .method (.ofList owner) (.ofList name) (.ofList desc),
          by simp [entryWords, Subject.kind, Subject.words, h]⟩
      · exact ⟨access, .field (.ofList owner) (.ofList name) (.ofList desc),
          by simp [entryWords, Subject.kind, Subject.words, h]⟩
    · cases h
  · rintro ⟨access, s, rfl⟩
    cases s
    · rfl
    · exact .inr rfl
    · exact .inl rfl

theorem entry?_entryWords (d : Dictionary) (access : List Char) (s : Subject) :
    entry? d (entryWords access s) = some (entryWords access (s.renamed d)) := by
  cases s <;> simp [entryWords, entry?, Subject.kind, Subject.words, Subject.renamed]

theorem isEntry_of_renamed {d : Dictionary} {words renamed : List (List Char)}
    (h : entry? d words = some renamed) : IsEntry words := by
  unfold entry? at h
  split at h
  · split at h
    · next hkind => exact hkind
    · cases h
  · split at h
    · next hkind => exact .inl hkind
    · split at h
      · next hkind => exact .inr hkind
      · cases h
  · cases h

/-- An entry is renamed by renaming what it is about. -/
theorem entry?_eq_some_iff {d : Dictionary} {words renamed : List (List Char)} :
    entry? d words = some renamed ↔
      ∃ access s, words = entryWords access s ∧ renamed = entryWords access (s.renamed d) := by
  constructor
  · intro h
    obtain ⟨access, s, rfl⟩ := isEntry_iff.1 (isEntry_of_renamed h)
    rw [entry?_entryWords, Option.some.injEq] at h
    exact ⟨access, s, rfl, h.symm⟩
  · rintro ⟨access, s, rfl, rfl⟩
    exact entry?_entryWords d access s

theorem header_eq_ok_iff {w : AccessWidener} {words renamed : List (List Char)} :
    header w words = .ok renamed ↔
      ∃ version, words = ["accessWidener".toList, version, w.source.toList] ∧
        renamed = ["accessWidener".toList, version, w.target.toList] := by
  constructor
  · intro h
    unfold header at h
    split at h
    · next mark version found =>
      split at h
      · cases h
      · next hmark =>
        split at h
        · cases h
        · next hfound =>
          rw [not_ne_iff] at hmark hfound
          cases h
          refine ⟨version, ?_, ?_⟩ <;> simp [hmark, ← hfound]
    · cases h
  · rintro ⟨version, rfl, rfl⟩
    simp [header]

/-! ### Lines -/

/-- The words of the lines that have any. -/
def contents (ls : List Line) : List (List (List Char)) :=
  (ls.map Line.words).filter fun words => !words.isEmpty

@[simp] theorem contents_cons_of_eq_nil {l : Line} (h : l.words = []) (ls : List Line) :
    contents (l :: ls) = contents ls := by
  simp [contents, h]

@[simp] theorem contents_cons_of_ne_nil {l : Line} (h : l.words ≠ []) (ls : List Line) :
    contents (l :: ls) = l.words :: contents ls := by
  simp [contents, h]

/-- The words of the entries among lines that come behind the header or, if it was not read yet,
begin with it. -/
def entriesOf (headed : Bool) (ls : List Line) : List (List (List Char)) :=
  if headed then contents ls else (contents ls).tail

/-- What the entries among lines are about. -/
def Mentions (headed : Bool) (ls : List Line) (s : Subject) : Prop :=
  ∃ access, entryWords access s ∈ entriesOf headed ls

section Entries

variable {headed : Bool} {l : Line}

theorem entriesOf_cons_of_eq_nil (h : l.words = []) (ls : List Line) :
    entriesOf headed (l :: ls) = entriesOf headed ls := by
  rw [entriesOf, entriesOf, contents_cons_of_eq_nil h]

theorem entriesOf_false_cons (h : l.words ≠ []) (ls : List Line) :
    entriesOf false (l :: ls) = entriesOf true ls := by
  simp only [entriesOf, contents_cons_of_ne_nil h, Bool.false_eq_true, if_false, if_true,
    List.tail_cons]

theorem entriesOf_true_cons (h : l.words ≠ []) (ls : List Line) :
    entriesOf true (l :: ls) = l.words :: entriesOf true ls := by
  simp only [entriesOf, contents_cons_of_ne_nil h, if_true]

end Entries

/-- Lines and what they are renamed to. -/
inductive Renames (w : AccessWidener) (d : Dictionary) : Bool → List Line → List Line → Prop where
  | nil : Renames w d true [] []
  | blank {headed l ls ls'} (hwords : l.words = []) (hrest : Renames w d headed ls ls') :
      Renames w d headed (l :: ls) (l :: ls')
  | header {version l ls ls'}
      (hwords : l.words = ["accessWidener".toList, version, w.source.toList])
      (hrest : Renames w d true ls ls') :
      Renames w d false (l :: ls)
        (l.reword '\t' ["accessWidener".toList, version, w.target.toList] :: ls')
  | entry {access s l ls ls'} (hwords : l.words = entryWords access s)
      (hrest : Renames w d true ls ls') :
      Renames w d true (l :: ls) (l.reword '\t' (entryWords access (s.renamed d)) :: ls')

section Lines

variable {w : AccessWidener} {file : String} {d : Dictionary} {headed : Bool} {ls : List Line}

theorem map_eq_ok_iff {ε α β : Type} {f : α → β} {x : Except ε α} {b : β} :
    x.map f = .ok b ↔ ∃ a, x = .ok a ∧ f a = b := by
  cases x <;> simp [Except.map]

theorem lines_of_renames {ls' : List Line} (h : Renames w d headed ls ls') :
    lines w file d headed ls = .ok (ls'.flatMap Line.keep) := by
  induction h with
  | nil => rfl
  | blank hwords _ ih =>
    rw [lines, hwords, List.isEmpty_nil, if_pos rfl, ih]
    rfl
  | header hwords _ ih =>
    have hheader := header_eq_ok_iff.2 ⟨_, hwords, rfl⟩
    rw [lines, hheader, ih, hwords]
    rfl
  | entry hwords _ ih =>
    have hentry := (entry?_eq_some_iff (d := d)).2 ⟨_, _, hwords, rfl⟩
    rw [lines, hentry, ih, hwords]
    rfl

theorem exists_renames {out : List Char} (h : lines w file d headed ls = .ok out) :
    ∃ ls', Renames w d headed ls ls' := by
  induction ls generalizing headed out with
  | nil =>
    rw [lines] at h
    split at h
    · next hheaded => exact ⟨[], hheaded ▸ .nil⟩
    · cases h
  | cons l ls ih =>
    rw [lines] at h
    split at h
    · next hwords =>
      obtain ⟨rest, hrest, -⟩ := map_eq_ok_iff.1 h
      obtain ⟨ls', hls'⟩ := ih hrest
      exact ⟨l :: ls', .blank (List.isEmpty_iff.1 hwords) hls'⟩
    · split at h
      · next hheaded =>
        subst hheaded
        split at h
        · cases h
        · next words hentry =>
          obtain ⟨access, s, hwords, -⟩ := entry?_eq_some_iff.1 hentry
          obtain ⟨rest, hrest, -⟩ := map_eq_ok_iff.1 h
          obtain ⟨ls', hls'⟩ := ih hrest
          exact ⟨_, .entry hwords hls'⟩
      · next hheaded =>
        rw [Bool.not_eq_true] at hheaded
        subst hheaded
        split at h
        · cases h
        · cases h
        · next words hheader =>
          obtain ⟨version, hwords, -⟩ := header_eq_ok_iff.1 hheader
          obtain ⟨rest, hrest, -⟩ := map_eq_ok_iff.1 h
          obtain ⟨ls', hls'⟩ := ih hrest
          exact ⟨_, .header hwords hls'⟩

/-- Behind the header, lines can be renamed if all that have words are entries. -/
theorem exists_renames_true_iff :
    (∃ ls', Renames w d true ls ls') ↔ ∀ words ∈ contents ls, IsEntry words := by
  constructor
  · rintro ⟨ls', h⟩
    generalize hheaded : true = headed at h
    induction h with
    | nil => simp [contents]
    | blank hwords _ ih =>
      rw [contents_cons_of_eq_nil hwords]
      exact ih hheaded
    | header => cases hheaded
    | entry hwords _ ih =>
      rw [contents_cons_of_ne_nil (by rw [hwords]; exact List.cons_ne_nil _ _)]
      exact List.forall_mem_cons.2 ⟨isEntry_iff.2 ⟨_, _, hwords⟩, ih hheaded⟩
  · intro h
    induction ls with
    | nil => exact ⟨[], .nil⟩
    | cons l ls ih =>
      by_cases hwords : l.words = []
      · rw [contents_cons_of_eq_nil hwords] at h
        obtain ⟨ls', hls'⟩ := ih h
        exact ⟨_, .blank hwords hls'⟩
      · rw [contents_cons_of_ne_nil hwords] at h
        obtain ⟨hentry, hrest⟩ := List.forall_mem_cons.1 h
        obtain ⟨access, s, hl⟩ := isEntry_iff.1 hentry
        obtain ⟨ls', hls'⟩ := ih hrest
        exact ⟨_, .entry hl hls'⟩

/-- Whether the lines with words are a header that names a namespace, and entries. -/
def Accepted (source : String) (ls : List Line) : Prop :=
  ∃ version entries, contents ls = ["accessWidener".toList, version, source.toList] :: entries ∧
    ∀ words ∈ entries, IsEntry words

theorem exists_renames_false_iff :
    (∃ ls', Renames w d false ls ls') ↔ Accepted w.source ls := by
  constructor
  · rintro ⟨ls', h⟩
    generalize hheaded : false = headed at h
    induction h with
    | nil => cases hheaded
    | blank hwords _ ih =>
      rw [Accepted, contents_cons_of_eq_nil hwords]
      exact ih hheaded
    | @header version l ls ls' hwords hrest _ =>
      have hne := hwords.trans_ne (List.cons_ne_nil _ _)
      refine ⟨version, contents ls, ?_, exists_renames_true_iff.1 ⟨ls', hrest⟩⟩
      rw [contents_cons_of_ne_nil hne, hwords]
    | entry => cases hheaded
  · rintro ⟨version, entries, hcontents, hentries⟩
    induction ls with
    | nil => cases hcontents
    | cons l ls ih =>
      by_cases hwords : l.words = []
      · rw [contents_cons_of_eq_nil hwords] at hcontents
        obtain ⟨ls', hls'⟩ := ih hcontents
        exact ⟨_, .blank hwords hls'⟩
      · rw [contents_cons_of_ne_nil hwords, List.cons.injEq] at hcontents
        obtain ⟨hheader, rfl⟩ := hcontents
        obtain ⟨ls', hls'⟩ := exists_renames_true_iff.2 hentries
        exact ⟨_, .header hheader hls'⟩

end Lines

/-! ### Hops -/

section Hops

variable {w : AccessWidener} {d : Dictionary} {headed : Bool} {ls ls' : List Line}

theorem Renames.keeps (h : Renames w d headed ls ls') : List.Forall₂ Line.Keeps ls ls' := by
  induction h with
  | nil => exact .nil
  | blank _ _ ih => exact .cons (.refl _) ih
  | header hwords _ ih =>
    exact .cons (Line.keeps_reword (hwords.trans_ne (List.cons_ne_nil _ _)) _ _) ih
  | entry hwords _ ih =>
    exact .cons (Line.keeps_reword (hwords.trans_ne (List.cons_ne_nil _ _)) _ _) ih

theorem Renames.map_number (h : Renames w d headed ls ls') :
    ls'.map Line.number = ls.map Line.number := by
  induction h with
  | nil => rfl
  | blank _ _ ih => rw [List.map_cons, List.map_cons, ih]
  | header _ _ ih => rw [List.map_cons, List.map_cons, ih, Line.reword]
  | entry _ _ ih => rw [List.map_cons, List.map_cons, ih, Line.reword]

/-- Renamed lines are read again, if the words that take the place of others can be. -/
theorem Renames.reads (h : Renames w d headed ls ls') (hreads : ∀ l ∈ ls, l.Reads)
    (htarget : IsToken w.target.toList)
    (hsubjects : ∀ s, Mentions headed ls s → ∀ word ∈ (s.renamed d).words, IsToken word) :
    ∀ l ∈ ls', l.Reads := by
  induction h with
  | nil => exact fun l hl => absurd hl List.not_mem_nil
  | blank hwords _ ih =>
    obtain ⟨hl, hls⟩ := List.forall_mem_cons.1 hreads
    refine List.forall_mem_cons.2 ⟨hl, ih hls fun s hs => ?_⟩
    rw [Mentions, ← entriesOf_cons_of_eq_nil hwords] at hs
    exact hsubjects s hs
  | @header version l ls ls' hwords _ ih =>
    obtain ⟨hl, hls⟩ := List.forall_mem_cons.1 hreads
    have hne := hwords.trans_ne (List.cons_ne_nil _ _)
    have htokens : ∀ word ∈ l.words, IsToken word := fun word hword =>
      Line.isToken_of_mem_words (hl.ofText.symm ▸ hword)
    refine List.forall_mem_cons.2 ⟨hl.reword (.inl rfl) ?_, ih hls fun s hs => ?_⟩
    · rw [hwords] at htokens
      simp only [List.forall_mem_cons] at htokens ⊢
      exact ⟨htokens.1, htokens.2.1, htarget, htokens.2.2.2⟩
    · rw [Mentions, ← entriesOf_false_cons hne] at hs
      exact hsubjects s hs
  | @entry access s l ls ls' hwords _ ih =>
    obtain ⟨hl, hls⟩ := List.forall_mem_cons.1 hreads
    have hne := hwords.trans_ne (List.cons_ne_nil _ _)
    have htokens : ∀ word ∈ l.words, IsToken word := fun word hword =>
      Line.isToken_of_mem_words (hl.ofText.symm ▸ hword)
    have hmentions : ∀ t, Mentions true ls t ∨ t = s → Mentions true (l :: ls) t := by
      intro t ht
      rw [Mentions, entriesOf_true_cons hne]
      rcases ht with ⟨access, hmem⟩ | rfl
      · exact ⟨access, List.mem_cons_of_mem _ hmem⟩
      · exact ⟨access, hwords ▸ List.mem_cons_self⟩
    refine List.forall_mem_cons.2 ⟨hl.reword (.inl rfl) ?_, ih hls fun t ht => ?_⟩
    · rw [hwords] at htokens
      simp only [entryWords, List.forall_mem_cons, Subject.kind_renamed] at htokens ⊢
      exact ⟨htokens.1, htokens.2.1, hsubjects s (hmentions s (.inr rfl))⟩
    · exact hsubjects t (hmentions t (.inl ht))

/-- Two hops are one, if they are for what the entries are about. -/
theorem Renames.chain {a b : String} {d₁ : Dictionary} {ls₁ : List Line}
    (h : Renames ⟨a, b⟩ d₁ headed ls ls₁) (c : String) {d₂ d₃ : Dictionary}
    (hcompose : ∀ s, Mentions headed ls s → (s.renamed d₁).renamed d₂ = s.renamed d₃) :
    ∃ ls₂, Renames ⟨b, c⟩ d₂ headed ls₁ ls₂ ∧ Renames ⟨a, c⟩ d₃ headed ls ls₂ := by
  induction h with
  | nil => exact ⟨[], .nil, .nil⟩
  | blank hwords _ ih =>
    obtain ⟨ls₂, hsecond, hdirect⟩ := ih fun s hs => hcompose s (by
      rwa [Mentions, entriesOf_cons_of_eq_nil hwords])
    exact ⟨_, .blank hwords hsecond, .blank hwords hdirect⟩
  | header hwords _ ih =>
    have hne := hwords.trans_ne (List.cons_ne_nil _ _)
    obtain ⟨ls₂, hsecond, hdirect⟩ := ih fun s hs => hcompose s (by
      rwa [Mentions, entriesOf_false_cons hne])
    exact ⟨_, .header rfl hsecond, .header hwords hdirect⟩
  | @entry access s l ls ls₁ hwords _ ih =>
    have hne := hwords.trans_ne (List.cons_ne_nil _ _)
    have hs : (s.renamed d₁).renamed d₂ = s.renamed d₃ := by
      refine hcompose s ⟨access, ?_⟩
      rw [entriesOf_true_cons hne, hwords]
      exact List.mem_cons_self
    obtain ⟨ls₂, hsecond, hdirect⟩ := ih fun t ⟨access, ht⟩ => hcompose t ⟨access, by
      rw [entriesOf_true_cons hne]
      exact List.mem_cons_of_mem _ ht⟩
    -- The second hop reads the words the first one wrote, and puts its own in their place.
    have hnext : Renames ⟨b, c⟩ d₂ true (l.reword '\t' (entryWords access (s.renamed d₁)) :: ls₁) _ :=
      .entry rfl hsecond
    rw [hs, Line.reword_reword] at hnext
    exact ⟨_, hnext, .entry hwords hdirect⟩

end Hops

/-! ### Files -/

section Files

variable {w : AccessWidener} {file : String} {d : Dictionary} {text : List Char}

theorem transform_encode (w : AccessWidener) (file : String) (d : Dictionary) (text : List Char) :
    transform w file (encode text) d = (lines w file d false (Line.all text)).map encode := by
  rw [transform, decode?_encode]

theorem transform_of_renames {ls' : List Line} (h : Renames w d false (Line.all text) ls') :
    transform w file (encode text) d = .ok (encode (ls'.flatMap Line.keep)) := by
  rw [transform_encode, lines_of_renames h]
  rfl

/-- Exactly the texts that are accepted are renamed. -/
theorem exists_transform_iff {bytes : List UInt8} :
    (∃ out, transform w file bytes d = .ok out) ↔
      ∃ text, bytes = encode text ∧ Accepted w.source (Line.all text) := by
  constructor
  · rintro ⟨out, h⟩
    rw [transform] at h
    split at h
    · cases h
    · next text hread =>
      obtain ⟨out, hlines, -⟩ := map_eq_ok_iff.1 h
      exact ⟨text, decode?_eq_some_iff.1 hread, exists_renames_false_iff.1 (exists_renames hlines)⟩
  · rintro ⟨text, rfl, haccepted⟩
    obtain ⟨ls', hls'⟩ := (exists_renames_false_iff (d := d)).2 haccepted
    exact ⟨_, transform_of_renames hls'⟩

/-- What was renamed is read as the renamed lines. -/
theorem all_of_renames {ls' : List Line} (h : Renames w d false (Line.all text) ls')
    (hreads : ∀ l ∈ ls', l.Reads) : Line.all (ls'.flatMap Line.keep) = ls' :=
  Line.all_flatMap_keep_of_numbers hreads h.map_number

/-- Files whose lines with words are a header and entries are renamed, and no others are. What is
renamed goes through a second hop, and to the file that a direct hop makes of the original, if the
dictionaries of the two hops and of the direct one agree on what the entries are about, and write it
in words. Remarks, and lines without words, are kept. -/
theorem hops_compose (file : String) (a b c : String) (d₁ d₂ d₃ : Dictionary) (bytes : List UInt8) :
    ((∃ out, transform ⟨a, b⟩ file bytes d₁ = .ok out) ↔
      ∃ text, bytes = encode text ∧ Accepted a (Line.all text)) ∧
    ∀ text, bytes = encode text → Accepted a (Line.all text) → returnsEndLines text = true →
      IsToken b.toList → IsToken c.toList →
      (∀ s, Mentions false (Line.all text) s → (s.renamed d₁).renamed d₂ = s.renamed d₃ ∧
        (∀ word ∈ (s.renamed d₁).words, IsToken word) ∧
        ∀ word ∈ (s.renamed d₃).words, IsToken word) →
      ∃ middle out, transform ⟨a, b⟩ file bytes d₁ = .ok (encode middle) ∧
        transform ⟨b, c⟩ file (encode middle) d₂ = .ok (encode out) ∧
        transform ⟨a, c⟩ file bytes d₃ = .ok (encode out) ∧
        List.Forall₂ Line.Keeps (Line.all text) (Line.all out) := by
  refine ⟨exists_transform_iff, ?_⟩
  rintro text rfl haccepted hreturns hb hc hsubjects
  have hreads : ∀ l ∈ Line.all text, l.Reads := fun l hl => Line.reads_of_mem_all hreturns hl
  obtain ⟨ls₁, hfirst⟩ := (exists_renames_false_iff (w := ⟨a, b⟩) (d := d₁)).2 haccepted
  obtain ⟨ls₂, hsecond, hdirect⟩ := hfirst.chain c fun s hs => (hsubjects s hs).1
  have hmiddle := all_of_renames hfirst
    (hfirst.reads hreads hb fun s hs => (hsubjects s hs).2.1)
  have hout := all_of_renames hdirect
    (hdirect.reads hreads hc fun s hs => (hsubjects s hs).2.2)
  refine ⟨ls₁.flatMap Line.keep, ls₂.flatMap Line.keep, transform_of_renames hfirst,
    transform_of_renames (by rwa [hmiddle]), transform_of_renames hdirect, ?_⟩
  rw [hout]
  exact hdirect.keeps

namespace Sample

/-- A file with a remark of its own, a blank line, and lines that end in two ways. -/
def widener : List Char :=
  "accessWidener v2 official\r\n# hidden\n\naccessible  method a m (La;)V # shadow\n".toList ++
    "extendable class a".toList

def widenerNamed : List Char :=
  "accessWidener\tv2\tnamed\n# hidden\n\naccessible\tmethod\tB\ttick\t(LB;)V\t# shadow\n".toList ++
    "extendable\tclass\tB\n".toList

def toSearge : Dictionary where
  source := ⟨"official", false⟩
  target := ⟨"searge", false⟩
  classes := .ofList [("a", "C_1")]
  methods := .ofList [(⟨"a", "m", some "(La;)V"⟩, "f_1")]

def toNamed : Dictionary where
  source := ⟨"searge", false⟩
  target := ⟨"named", true⟩
  classes := .ofList [("C_1", "B")]
  methods := .ofList [(⟨"C_1", "f_1", some "(LC_1;)V"⟩, "tick")]

def straight : Dictionary where
  source := ⟨"official", false⟩
  target := ⟨"named", true⟩
  classes := .ofList [("a", "B")]
  methods := .ofList [(⟨"a", "m", some "(La;)V"⟩, "tick")]

def method : Subject := .method "a" "m" "(La;)V"

def type : Subject := .type "a"

theorem contents_widener : contents (Line.all widener) =
    [["accessWidener".toList, "v2".toList, "official".toList],
      entryWords "accessible".toList method, entryWords "extendable".toList type] := by
  decide +kernel

theorem mentions_widener {s : Subject} (h : Mentions false (Line.all widener) s) :
    s = method ∨ s = type := by
  obtain ⟨access, hmem⟩ := h
  simp only [entriesOf, contents_widener, Bool.false_eq_true, if_false, List.tail_cons,
    List.mem_cons, List.not_mem_nil, or_false] at hmem
  exact hmem.imp subject_eq_of_entryWords_eq subject_eq_of_entryWords_eq

end Sample

open Sample in
theorem hops_compose_official_searge_named :
    ∃ middle, transform ⟨"official", "searge"⟩ "a.accesswidener" (encode widener) toSearge =
        .ok (encode middle) ∧
      transform ⟨"searge", "named"⟩ "a.accesswidener" (encode middle) toNamed =
        .ok (encode widenerNamed) ∧
      List.Forall₂ Line.Keeps (Line.all widener) (Line.all widenerNamed) := by
  have haccepted : Accepted "official" (Line.all widener) := by
    refine ⟨"v2".toList, _, contents_widener, ?_⟩
    simp only [List.forall_mem_cons]
    exact ⟨.inl rfl, rfl, fun _ h => absurd h List.not_mem_nil⟩
  obtain ⟨middle, out, hfirst, hsecond, hdirect, hkeeps⟩ :=
    (hops_compose "a.accesswidener" "official" "searge" "named" toSearge toNamed straight
      (encode widener)).2 widener rfl haccepted (by decide +kernel) (by decide +kernel)
      (by decide +kernel) fun s hs => by
        rcases mentions_widener hs with rfl | rfl <;> decide +kernel
  have hnamed : transform ⟨"official", "named"⟩ "a.accesswidener" (encode widener) straight =
      .ok (encode widenerNamed) := by
    decide +kernel
  have hout : out = widenerNamed := by
    rw [hdirect, Except.ok.injEq] at hnamed
    rw [← Option.some.injEq, ← decode?_encode, hnamed, decode?_encode]
  rw [hout] at hsecond hkeeps
  exact ⟨middle, hfirst, hsecond, hkeeps⟩

end Files

end JarRemap.Resource.AccessWidener
