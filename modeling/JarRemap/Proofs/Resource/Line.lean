import JarRemap.Proofs.Text.Lines
import JarRemap.Proofs.Text.Split
import JarRemap.Proofs.Text.Words
import JarRemap.Resource.Line

/-!
# Lines are taken apart as they were put together

A line can be given other words. If these have no blanks and no number signs, the new line is taken
apart into them and the remark the line had before, and a text that is written line by line is taken
apart into the lines it was written from.
-/

namespace JarRemap

open Text

/-- A text that can stand as one word before a remark. -/
def Text.IsToken (w : List Char) : Prop := IsWord w ∧ '#' ∉ w

instance (w : List Char) : Decidable (IsWord w) :=
  @instDecidableAnd _ _ _ (List.decidableBAll (isBlank · = false) w)

instance (w : List Char) : Decidable (IsToken w) := inferInstanceAs (Decidable (_ ∧ _))

theorem Text.isToken_iff {w : List Char} :
    IsToken w ↔ w ≠ [] ∧ ∀ c ∈ w, isBlank c = false ∧ c ≠ '#' := by
  constructor
  · rintro ⟨⟨hne, hblank⟩, hsign⟩
    exact ⟨hne, fun c hc => ⟨hblank c hc, ne_of_mem_of_not_mem hc hsign⟩⟩
  · rintro ⟨hne, hall⟩
    exact ⟨⟨hne, fun c hc => (hall c hc).1⟩, fun hsign => (hall '#' hsign).2 rfl⟩

/-- A token stays one with more characters that can stand in tokens. -/
theorem Text.IsToken.append {w v : List Char} (hw : IsToken w)
    (hv : ∀ c ∈ v, isBlank c = false ∧ c ≠ '#') : IsToken (w ++ v) := by
  rw [isToken_iff] at hw ⊢
  refine ⟨by simp [hw.1], fun c hc => ?_⟩
  rcases List.mem_append.1 hc with hc | hc
  · exact hw.2 c hc
  · exact hv c hc

namespace Resource

/-- A line with other words, parted by a separator, and the same remark. -/
def Line.reword (separator : Char) (words : List (List Char)) (l : Line) : Line :=
  { l with
    whole := [separator].intercalate words ++ l.remark.elim [] (separator :: ·)
    words }

/-- A line that is what its text is taken apart into, and whose text is a line. -/
structure Line.Reads (l : Line) : Prop where
  ofText : .ofText l.number l.whole = l
  feed : '\n' ∉ l.whole
  returns : '\r' ∉ l.whole

/-- What a renamed line keeps of the line it was: its place, its remark, and all of it if there are
no words. -/
structure Line.Keeps (l l' : Line) : Prop where
  number : l'.number = l.number
  remark : l'.remark = l.remark
  blank : l.words = [] → l' = l

namespace Line

theorem Keeps.refl (l : Line) : l.Keeps l := ⟨rfl, rfl, fun _ => rfl⟩

theorem keeps_reword {l : Line} (h : l.words ≠ []) (c : Char) (words : List (List Char)) :
    l.Keeps (l.reword c words) :=
  ⟨rfl, rfl, fun hwords => absurd hwords h⟩

theorem reword_reword (c : Char) (first second : List (List Char)) (l : Line) :
    (l.reword c first).reword c second = l.reword c second := rfl

section OfText

variable {n : Nat} {text before rest : List Char}

theorem ofText_of_not_mem (h : '#' ∉ text) : ofText n text = ⟨n, text, Text.words text, none⟩ := by
  rw [ofText, takeWhile_ne_of_not_mem h, dropWhile_ne_of_not_mem h]
  rfl

/-- A remark begins at the first number sign. -/
theorem ofText_append (h : '#' ∉ before) : ofText n (before ++ '#' :: rest) =
    ⟨n, before ++ '#' :: rest, Text.words before, some ('#' :: rest)⟩ := by
  rw [ofText, takeWhile_ne_append_cons h, dropWhile_ne_append_cons h]
  rfl

theorem remark_cases (n : Nat) (text : List Char) :
    ('#' ∉ text ∧ ofText n text = ⟨n, text, Text.words text, none⟩) ∨
    ∃ before rest, text = before ++ '#' :: rest ∧ '#' ∉ before ∧
      ofText n text = ⟨n, text, Text.words before, some ('#' :: rest)⟩ := by
  by_cases h : '#' ∈ text
  · obtain ⟨before, rest, rfl, hbefore⟩ := List.eq_append_cons_of_mem h
    exact .inr ⟨before, rest, rfl, hbefore, ofText_append hbefore⟩
  · exact .inl ⟨h, ofText_of_not_mem h⟩

/-- The words of a line can be written as words again. -/
theorem isToken_of_mem_words {w : List Char} (hw : w ∈ (ofText n text).words) : IsToken w := by
  rcases remark_cases n text with ⟨htext, hof⟩ | ⟨before, rest, -, hbefore, hof⟩
  · rw [hof] at hw
    exact ⟨(mem_words hw).1, fun hsign => htext ((mem_words hw).2 _ hsign)⟩
  · rw [hof] at hw
    exact ⟨(mem_words hw).1, fun hsign => hbefore ((mem_words hw).2 _ hsign)⟩

end OfText

/-- A line that is given words that can stand as words is taken apart into them. -/
theorem Reads.reword {l : Line} (hl : l.Reads) {c : Char} (hc : c = '\t' ∨ c = ' ')
    {ws : List (List Char)} (h : ∀ w ∈ ws, IsToken w) : (l.reword c ws).Reads := by
  have hcblank : isBlank c = true := by rcases hc with rfl | rfl <;> decide
  have hcline : '#' ≠ c ∧ '\n' ≠ c ∧ '\r' ≠ c := by rcases hc with rfl | rfl <;> decide
  have hjoined : Text.words ([c].intercalate ws) = ws :=
    words_intercalate hcblank fun w hw => (h w hw).1
  have habsent : ∀ x, isBlank x = true ∨ x = '#' → x ≠ c → x ∉ [c].intercalate ws := by
    intro x hx hne
    refine not_mem_intercalate hne fun w hw hmem => ?_
    rcases hx with hblank | rfl
    · rw [(h w hw).1.2 x hmem] at hblank
      cases hblank
    · exact (h w hw).2 hmem
  have hsign := habsent '#' (.inr rfl) hcline.1
  have hfeed := habsent '\n' (.inl (by decide)) hcline.2.1
  have hreturn := habsent '\r' (.inl (by decide)) hcline.2.2
  rcases remark_cases l.number l.whole with ⟨-, hof⟩ | ⟨before, rest, hwhole, -, hof⟩
  · have hremark : l.remark = none := by rw [← hl.ofText, hof]
    constructor <;> simp only [Line.reword, hremark, Option.elim, List.append_nil]
    · rw [ofText_of_not_mem hsign, hjoined]
    · exact hfeed
    · exact hreturn
  · have hremark : l.remark = some ('#' :: rest) := by rw [← hl.ofText, hof]
    have hrest : ∀ x, x ∉ l.whole → x ≠ c → x ∉ [c].intercalate ws →
        x ∉ [c].intercalate ws ++ c :: '#' :: rest := by
      intro x hx hne hws
      rw [hwhole] at hx
      simp only [List.mem_append, List.mem_cons, not_or] at hx ⊢
      exact ⟨hws, hne, hx.2⟩
    constructor <;> simp only [Line.reword, hremark, Option.elim]
    · -- The separator before the remark ends the last word and begins none.
      have hbefore : '#' ∉ [c].intercalate ws ++ [c] := by
        simpa using ⟨hsign, hcline.1⟩
      have happend := @ofText_append l.number _ rest hbefore
      rw [words_append_blank hcblank, hjoined, List.append_assoc, List.singleton_append] at happend
      rw [happend]
      exact congrArg (Line.mk l.number _ · _) (List.append_nil ws)
    · exact hrest '\n' hl.feed hcline.2.1 hfeed
    · exact hrest '\r' hl.returns hcline.2.2 hreturn

theorem map_number_all (text : List Char) :
    (all text).map number = List.range' 1 (all text).length := by
  refine List.ext_getElem (by simp) fun i hi _ => ?_
  simp only [all, numberedLines, List.getElem_map, List.getElem_zipIdx, List.getElem_range', ofText]
  omega

/-- The lines of a text are what their own texts are taken apart into. -/
theorem reads_of_mem_all {text : List Char} (htext : returnsEndLines text = true) {l : Line}
    (hl : l ∈ all text) : l.Reads := by
  obtain ⟨⟨n, whole⟩, hitem, rfl⟩ := List.mem_map.1 hl
  have hwhole : whole ∈ lines text := by
    rw [← map_snd_numberedLines]
    exact List.mem_map_of_mem hitem
  obtain ⟨hfeed, hreturn⟩ := mem_lines htext hwhole
  exact ⟨rfl, hfeed, hreturn⟩

/-- A text that is written line by line is taken apart into the lines it was written from. -/
theorem all_flatMap_keep {ls : List Line} (hreads : ∀ l ∈ ls, l.Reads)
    (hnumbers : ls.map number = List.range' 1 ls.length) : all (ls.flatMap keep) = ls := by
  have hlines : lines (ls.flatMap keep) = ls.map whole := by
    have hkeep : ls.flatMap keep = (ls.map whole).flatMap fun t => t ++ ['\n'] := by
      rw [List.flatMap_map]
      rfl
    rw [hkeep]
    refine lines_flatMap fun t ht => ?_
    obtain ⟨l, hl, rfl⟩ := List.mem_map.1 ht
    exact ⟨(hreads l hl).feed, (hreads l hl).returns⟩
  refine List.ext_getElem (by simp [all, numberedLines, hlines]) fun i hi hi' => ?_
  have hnumber : ls[i].number = i + 1 := by
    have hat := List.getElem_of_eq hnumbers (i := i) (by simpa using hi')
    rw [List.getElem_map, List.getElem_range'] at hat
    omega
  simp only [all, numberedLines, hlines, List.getElem_map, List.getElem_zipIdx, Nat.zero_add]
  rw [← hnumber]
  exact (hreads ls[i] (List.getElem_mem hi')).ofText

/-- So is a text that is written from lines with the numbers that the lines of a text have. -/
theorem all_flatMap_keep_of_numbers {text : List Char} {ls : List Line} (hreads : ∀ l ∈ ls, l.Reads)
    (hnumbers : ls.map number = (all text).map number) : all (ls.flatMap keep) = ls := by
  have hlength := congrArg List.length hnumbers
  rw [List.length_map, List.length_map] at hlength
  exact all_flatMap_keep hreads (by rw [hnumbers, map_number_all, hlength])

end Line

end Resource

end JarRemap
