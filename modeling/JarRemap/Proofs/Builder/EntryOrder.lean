import Mathlib.Data.List.Basic
import JarRemap.Proofs.Builder.Run

/-!
# The order of archive entries

The texts of an archive are sorted before any of them is read. Names are all that sorting leaves
open within a format, so entries of different names are read in one order only, whatever order the
archive has them in, and the outcome of a call depends on the set of the entries alone.
-/

namespace JarRemap

namespace MappingText

/-- Whether a text is read before another one of another name. -/
def Precedes (a b : MappingText) : Prop :=
  a.format.position < b.format.position ∨
    a.format.position = b.format.position ∧ a.name < b.name

variable {a b c : MappingText}

theorem le_iff : le a b = true ↔
    a.Precedes b ∨ a.format.position = b.format.position ∧ a.name = b.name := by
  simp only [le, Precedes, Bool.or_eq_true, Bool.and_eq_true, decide_eq_true_eq, beq_iff_eq]
  tauto

theorem Precedes.of_le (h : le a b = true) (hname : a.name ≠ b.name) : a.Precedes b := by
  rcases le_iff.1 h with h | ⟨-, hsame⟩
  · exact h
  · exact absurd hsame hname

theorem Precedes.asymm (hab : a.Precedes b) : ¬ b.Precedes a := by
  intro hba
  rcases hab with hab | ⟨hsame, hab⟩ <;> rcases hba with hba | ⟨hsame', hba⟩
  · omega
  · omega
  · omega
  · exact String.lt_asymm hab hba

theorem le_total (a b : MappingText) : (le a b || le b a) = true := by
  rw [Bool.or_eq_true, le_iff, le_iff]
  rcases Nat.lt_trichotomy a.format.position b.format.position with h | h | h
  · exact .inl (.inl (.inl h))
  · by_cases hab : a.name < b.name
    · exact .inl (.inl (.inr ⟨h, hab⟩))
    · by_cases hba : b.name < a.name
      · exact .inr (.inl (.inr ⟨h.symm, hba⟩))
      · have hname := String.le_antisymm (String.not_lt.1 hba) (String.not_lt.1 hab)
        exact .inl (.inr ⟨h, hname⟩)
  · exact .inr (.inl (.inl h))

theorem le_trans (a b c : MappingText) (hab : le a b = true) (hbc : le b c = true) :
    le a c = true := by
  rw [le_iff] at *
  rcases hab with (h | ⟨h, hlt⟩) | ⟨h, heq⟩ <;> rcases hbc with (h' | ⟨h', hlt'⟩) | ⟨h', heq'⟩
  all_goals first
    | exact .inl (.inl (by omega))
    | exact .inl (.inr ⟨h.trans h', String.lt_trans hlt hlt'⟩)
    | exact .inl (.inr ⟨h.trans h', heq' ▸ hlt⟩)
    | exact .inl (.inr ⟨h.trans h', heq ▸ hlt'⟩)
    | exact .inr ⟨h.trans h', heq.trans heq'⟩

theorem name_of_ofEntry? {e : Entry} {m : MappingText} (h : ofEntry? e = some m) :
    m.name = e.name := by
  obtain ⟨format, -, rfl⟩ := Option.map_eq_some_iff.1 h
  rfl

end MappingText

open MappingText (Precedes ofEntry?)

theorem pairwise_name_of_nodup {entries : List Entry} (h : (entries.map Entry.name).Nodup) :
    (entries.filterMap ofEntry?).Pairwise fun a b => a.name ≠ b.name := by
  have hnames : entries.Pairwise fun e e' => e.name ≠ e'.name := List.pairwise_map.1 h
  refine hnames.filterMap ofEntry? ?_
  intro e e' hne a ha b hb
  rwa [MappingText.name_of_ofEntry? ha, MappingText.name_of_ofEntry? hb]

/-- The texts of an archive whose entries have safe names, no two of them the same, are those of its
files, each before those it precedes. -/
theorem Content.mappings_archive {entries : List Entry} (hnames : (entries.map Entry.name).Nodup)
    (hsafe : ∀ e ∈ entries, e.isSafe = true) :
    ∃ texts, (archive entries).mappings = .ok texts ∧ texts.Pairwise Precedes ∧
      texts.Perm ((entries.filter fun e => !e.isDirectory).filterMap ofEntry?) := by
  have hfiles : ((entries.filter fun e => !e.isDirectory).find? fun e => !e.isSafe) = none := by
    rw [List.find?_eq_none]
    intro e he
    simp only [hsafe e (List.mem_of_mem_filter he), Bool.not_true, Bool.false_eq_true,
      not_false_eq_true]
  have hsorted := List.pairwise_mergeSort MappingText.le_trans MappingText.le_total
    ((entries.filter fun e => !e.isDirectory).filterMap ofEntry?)
  have hperm := List.mergeSort_perm
    ((entries.filter fun e => !e.isDirectory).filterMap ofEntry?) MappingText.le
  have hdistinct := pairwise_name_of_nodup
    (hnames.sublist (List.filter_sublist.map Entry.name : List.Sublist
      ((entries.filter fun e => !e.isDirectory).map Entry.name) _))
  refine ⟨_, ?_, hsorted.imp₂ (fun a b h hne => .of_le h hne)
    (hperm.symm.pairwise hdistinct fun h => h.symm), hperm⟩
  simp only [mappings, entries?, hfiles]

/-- The order in which texts are read is that of the set of entries. -/
theorem Content.mappings_perm {entries entries' : List Entry} (hperm : entries.Perm entries')
    (hnames : (entries.map Entry.name).Nodup) (hsafe : ∀ e ∈ entries, e.isSafe = true) :
    (archive entries).mappings = (archive entries').mappings := by
  have hnames' : (entries'.map Entry.name).Nodup := (hperm.map Entry.name).nodup_iff.1 hnames
  have hsafe' : ∀ e ∈ entries', e.isSafe = true := fun e he => hsafe e (hperm.mem_iff.2 he)
  obtain ⟨texts, htexts, hsorted, hof⟩ := mappings_archive hnames hsafe
  obtain ⟨texts', htexts', hsorted', hof'⟩ := mappings_archive hnames' hsafe'
  have hsame : texts.Perm texts' :=
    hof.trans (((hperm.filter _).filterMap ofEntry?).trans hof'.symm)
  have heq : texts = texts' :=
    hsame.eq_of_pairwise (fun a b _ _ hab hba => absurd hba hab.asymm) hsorted hsorted'
  rw [htexts, htexts', heq]

theorem Content.isArchive_archive (entries : List Entry) : (archive entries).isArchive = true := by
  cases entries <;> rfl

/-- What is read of an archive does not depend on the order of its entries. -/
theorem Builder.texts_perm {entries entries' : List Entry} (hperm : entries.Perm entries')
    (hnames : (entries.map Entry.name).Nodup) (hsafe : ∀ e ∈ entries, e.isSafe = true)
    (side : Side) (name : String) (format : Option Format) :
    texts side name format (.archive entries) = texts side name format (.archive entries') := by
  simp only [texts, Content.isArchive_archive, if_true,
    Content.mappings_perm hperm hnames hsafe]

/-- Merging an archive has one outcome whatever order its entries have, if they have safe names, no
two of them the same: the same error, or the same builder. The texts of the entries are read in an
order of their own, which the two archives share. -/
theorem Builder.entry_order_is_irrelevant (b : Builder) (name : String) (input : MappingInput)
    {entries entries' : List Entry} (hperm : entries.Perm entries')
    (hnames : (entries.map Entry.name).Nodup) (hsafe : ∀ e ∈ entries, e.isSafe = true) :
    b.step (.content name (.archive entries) input) =
        b.step (.content name (.archive entries') input) ∧
      ∃ texts, (Content.archive entries).mappings = .ok texts ∧
        (Content.archive entries').mappings = .ok texts ∧ texts.Pairwise Precedes ∧
        ∀ m, m ∈ texts ↔ ∃ e ∈ entries, e.isDirectory = false ∧ ofEntry? e = some m := by
  constructor
  · simp only [step, Building.perform, Building.mergeContent, texts_perm hperm hnames hsafe]
  · obtain ⟨texts, htexts, hsorted, hof⟩ := Content.mappings_archive hnames hsafe
    refine ⟨texts, htexts, Content.mappings_perm hperm hnames hsafe ▸ htexts, hsorted, ?_⟩
    intro m
    rw [hof.mem_iff]
    simp only [List.mem_filterMap, List.mem_filter, Bool.not_eq_true', and_assoc]

namespace Builder.Sample

/-- A text that gives the class `a` a name. -/
def naming (file name : String) : MappingText :=
  ⟨file, .tiny, ("v1\tofficial\tnamed\nCLASS\ta\t" ++ name ++ "\n").toList⟩

/-- Two sources that disagree about the name of a class, and a file that is none. -/
def disagreeing : List Entry :=
  [⟨"mappings/b.tiny", Text.encode (naming "mappings/b.tiny" "Last").text⟩,
    ⟨"README.txt", bytesOf "Nothing to see here"⟩,
    ⟨"mappings/a.tiny", Text.encode (naming "mappings/a.tiny" "First").text⟩]

theorem texts_disagreeing :
    texts .combined "m.zip" none (.archive disagreeing) =
      .ok [naming "mappings/a.tiny" "First", naming "mappings/b.tiny" "Last"] := by
  have hnames : (disagreeing.map Entry.name).Nodup := by decide
  have hsafe : ∀ e ∈ disagreeing, e.isSafe = true := by decide +kernel
  have hfound : (disagreeing.filter fun e => !e.isDirectory).filterMap ofEntry? =
      [naming "mappings/b.tiny" "Last", naming "mappings/a.tiny" "First"] := by
    decide +kernel
  have hfirst : (naming "mappings/a.tiny" "First").Precedes (naming "mappings/b.tiny" "Last") :=
    .inr ⟨rfl, by decide⟩
  obtain ⟨found, hmappings, hsorted, hperm⟩ := Content.mappings_archive hnames hsafe
  rw [hfound] at hperm
  have hread : found = [naming "mappings/a.tiny" "First", naming "mappings/b.tiny" "Last"] :=
    (hperm.trans (.swap _ _ _)).eq_of_pairwise (fun a b _ _ hab hba => absurd hba hab.asymm) hsorted
      (List.pairwise_pair.2 hfirst)
  rw [hread] at hmappings
  simp only [texts, Content.isArchive_archive, if_true, hmappings]
  rfl

end Builder.Sample

open Builder.Sample in
/-- Of two sources in an archive the one with the later name is read last, also where it stands
first. -/
theorem Builder.entry_order_is_irrelevant_disagreeing :
    ({} : Builder).step (.content "m.zip" (.archive disagreeing) (keyedBy "official")) =
        ({} : Builder).step (.content "m.zip" (.archive disagreeing.reverse) (keyedBy "official")) ∧
      ((texts .combined "m.zip" none (.archive disagreeing) >>=
        ({} : Builder).stage (keyedBy "official")).toOption.bind fun t =>
          (t.class? "a").map fun c => c.names) = some [some "a", some "Last"] := by
  have hperm : disagreeing.Perm disagreeing.reverse := (List.reverse_perm _).symm
  have hnames : (disagreeing.map Entry.name).Nodup := by decide
  have hsafe : ∀ e ∈ disagreeing, e.isSafe = true := by decide +kernel
  refine ⟨(entry_order_is_irrelevant {} "m.zip" (keyedBy "official") hperm hnames hsafe).1, ?_⟩
  rw [texts_disagreeing]
  decide +kernel

end JarRemap
