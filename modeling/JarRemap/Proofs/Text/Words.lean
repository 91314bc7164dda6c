import JarRemap.Text.Blank
import Mathlib.Data.List.Basic
import Mathlib.Data.List.TakeWhile
import JarRemap.Text.Numeral

/-!
# Words and numerals

What is read back from a text that was put together of words, or of digits.
-/

/-!
## Words are read as they were joined

A blank ends the word before it, so what stands on its two sides is cut into words on its own.
Words without blanks that are joined by blanks are the words of what they are joined to.
-/

namespace JarRemap.Text

/-- A text that can stand as one word. -/
def IsWord (w : List Char) : Prop := w ≠ [] ∧ ∀ c ∈ w, isBlank c = false

instance (w : List Char) : Decidable (IsWord w) :=
  decidable_of_iff (w ≠ [] ∧ w.all (fun c => !isBlank c) = true) (by simp [IsWord])

theorem wordsFrom_append_blank {c : Char} (hc : isBlank c = true) (word before behind : List Char) :
    wordsFrom word (before ++ c :: behind) = wordsFrom word before ++ wordsFrom [] behind := by
  induction before generalizing word with
  | nil =>
    simp only [List.nil_append, wordsFrom, hc, if_true]
    split <;> rfl
  | cons x before ih =>
    simp only [List.cons_append, wordsFrom]
    split
    · split
      · exact ih []
      · rw [ih [], List.cons_append]
    · exact ih (x :: word)

/-- What stands on the two sides of a blank is cut into words on its own. -/
theorem words_append_blank {c : Char} (hc : isBlank c = true) (before behind : List Char) :
    words (before ++ c :: behind) = words before ++ words behind :=
  wordsFrom_append_blank hc [] before behind

theorem wordsFrom_of_not_blank {word s : List Char} (hs : ∀ c ∈ s, isBlank c = false)
    (hne : word ≠ [] ∨ s ≠ []) : wordsFrom word s = [word.reverse ++ s] := by
  induction s generalizing word with
  | nil =>
    have hword : word ≠ [] := hne.resolve_right fun h => h rfl
    simp [wordsFrom, hword]
  | cons c s ih =>
    have hc : isBlank c = false := hs c List.mem_cons_self
    have hrest : wordsFrom (c :: word) s = [(c :: word).reverse ++ s] :=
      ih (fun x hx => hs x (List.mem_cons_of_mem c hx)) (.inl (List.cons_ne_nil _ _))
    simp only [wordsFrom, hc, Bool.false_eq_true, if_false, hrest, List.reverse_cons,
      List.append_assoc, List.singleton_append]

theorem words_of_isWord {w : List Char} (h : IsWord w) : words w = [w] :=
  wordsFrom_of_not_blank h.2 (.inr h.1)

/-- Words that are joined by a blank are read one by one. -/
theorem words_intercalate {c : Char} (hc : isBlank c = true) {ws : List (List Char)}
    (h : ∀ w ∈ ws, IsWord w) : words ([c].intercalate ws) = ws := by
  induction ws with
  | nil => rfl
  | cons w ws ih =>
    have hw := words_of_isWord (h w List.mem_cons_self)
    have hws := ih fun v hv => h v (List.mem_cons_of_mem w hv)
    cases ws with
    | nil => rwa [List.intercalate_singleton]
    | cons v ws =>
      rw [List.intercalate_cons_cons, List.append_assoc, List.singleton_append,
        words_append_blank hc, hw, hws, List.singleton_append]

theorem not_mem_intercalate {c x : Char} {ws : List (List Char)} (hx : x ≠ c)
    (h : ∀ w ∈ ws, x ∉ w) : x ∉ [c].intercalate ws := by
  induction ws with
  | nil => exact List.not_mem_nil
  | cons w ws ih =>
    have hw := h w List.mem_cons_self
    have hws := ih fun v hv => h v (List.mem_cons_of_mem w hv)
    cases ws with
    | nil => rwa [List.intercalate_singleton]
    | cons v ws =>
      rw [List.intercalate_cons_cons]
      simp only [List.mem_append, List.mem_singleton, not_or]
      exact ⟨⟨hw, hx⟩, hws⟩

/-- Joined texts begin with the first of them. -/
theorem exists_intercalate_cons (mark w : List Char) (ws : List (List Char)) :
    ∃ rest, mark.intercalate (w :: ws) = w ++ rest := by
  cases ws with
  | nil => exact ⟨[], by rw [List.intercalate_singleton, List.append_nil]⟩
  | cons v ws =>
    exact ⟨mark ++ mark.intercalate (v :: ws), by
      rw [List.intercalate_cons_cons, List.append_assoc]⟩

/-- Blanks before a text are no part of its words. -/
theorem words_replicate_append {c : Char} (hc : isBlank c = true) (n : Nat) (s : List Char) :
    words (List.replicate n c ++ s) = words s := by
  induction n with
  | zero => rfl
  | succ n ih =>
    rw [List.replicate_succ, List.cons_append, words, wordsFrom, if_pos hc, if_pos List.isEmpty_nil]
    exact ih

theorem trimStart_replicate_append {c : Char} (hc : isBlank c = true) (n : Nat) (s : List Char) :
    trimStart (List.replicate n c ++ s) = trimStart s := by
  rw [trimStart, List.dropWhile_append_of_pos fun x hx => List.eq_of_mem_replicate hx ▸ hc]
  rfl

theorem mem_wordsFrom {word s w : List Char} (hword : ∀ c ∈ word, isBlank c = false)
    (hw : w ∈ wordsFrom word s) : IsWord w ∧ ∀ c ∈ w, c ∈ word ∨ c ∈ s := by
  induction s generalizing word with
  | nil =>
    simp only [wordsFrom] at hw
    split at hw
    · cases hw
    · next hne =>
      rw [List.mem_singleton] at hw
      subst hw
      simp only [List.isEmpty_iff] at hne
      refine ⟨⟨by simpa using hne, fun c hc => hword c (List.mem_reverse.1 hc)⟩, ?_⟩
      exact fun c hc => .inl (List.mem_reverse.1 hc)
  | cons x s ih =>
    have hskip : w ∈ wordsFrom [] s → IsWord w ∧ ∀ c ∈ w, c ∈ word ∨ c ∈ x :: s := by
      intro hw
      obtain ⟨hisWord, hmem⟩ := ih (fun c (hc : c ∈ []) => by cases hc) hw
      refine ⟨hisWord, fun c hc => .inr (List.mem_cons_of_mem x ?_)⟩
      exact (hmem c hc).resolve_left List.not_mem_nil
    simp only [wordsFrom] at hw
    split at hw
    · split at hw
      · exact hskip hw
      · next hne =>
        simp only [List.isEmpty_iff] at hne
        rcases List.mem_cons.1 hw with rfl | hw
        · refine ⟨⟨by simpa using hne, fun c hc => hword c (List.mem_reverse.1 hc)⟩, ?_⟩
          exact fun c hc => .inl (List.mem_reverse.1 hc)
        · exact hskip hw
    · next hx =>
      have hword' : ∀ c ∈ x :: word, isBlank c = false :=
        List.forall_mem_cons.2 ⟨Bool.eq_false_iff.2 hx, hword⟩
      obtain ⟨hisWord, hmem⟩ := ih hword' hw
      refine ⟨hisWord, fun c hc => ?_⟩
      rcases hmem c hc with h | h
      · rcases List.mem_cons.1 h with rfl | h
        · exact .inr List.mem_cons_self
        · exact .inl h
      · exact .inr (List.mem_cons_of_mem x h)

/-- The words of a text can stand as words, and are made of its characters. -/
theorem mem_words {s w : List Char} (hw : w ∈ words s) : IsWord w ∧ ∀ c ∈ w, c ∈ s := by
  obtain ⟨hisWord, hmem⟩ := mem_wordsFrom (fun c hc => by cases hc) hw
  exact ⟨hisWord, fun c hc => (hmem c hc).resolve_left List.not_mem_nil⟩

theorem wordsFrom_ne_nil {word : List Char} (h : word ≠ []) (s : List Char) :
    wordsFrom word s ≠ [] := by
  induction s generalizing word with
  | nil => simp [wordsFrom, h]
  | cons c s ih =>
    rw [wordsFrom]
    split
    · simp [h]
    · exact ih (List.cons_ne_nil c word)

/-- A text without words is blank. -/
theorem words_eq_nil_iff {s : List Char} : words s = [] ↔ trimStart s = [] := by
  induction s with
  | nil => simp [words, wordsFrom, trimStart]
  | cons c s ih =>
    rw [words] at ih ⊢
    rw [wordsFrom, trimStart]
    by_cases hc : isBlank c = true
    · simpa [hc, trimStart] using ih
    · simp [hc, wordsFrom_ne_nil]

theorem exists_append_of_wordsFrom {word s w : List Char} {ws : List (List Char)}
    (hword : word ≠ []) (h : wordsFrom word s = w :: ws) :
    ∃ rest, word.reverse ++ s = w ++ rest := by
  induction s generalizing word with
  | nil =>
    rw [wordsFrom, if_neg (by simp [hword])] at h
    obtain ⟨rfl, -⟩ := List.cons.inj h
    exact ⟨[], rfl⟩
  | cons c s ih =>
    rw [wordsFrom, if_neg (by simp [hword] : ¬ word.isEmpty = true)] at h
    split at h
    · obtain ⟨rfl, -⟩ := List.cons.inj h
      exact ⟨c :: s, rfl⟩
    · obtain ⟨rest, hrest⟩ := ih (List.cons_ne_nil c word) h
      exact ⟨rest, by simpa using hrest⟩

/-- Blanks apart, a text begins with its first word. -/
theorem exists_trimStart_eq_append {s w : List Char} {ws : List (List Char)}
    (h : words s = w :: ws) : ∃ rest, trimStart s = w ++ rest := by
  induction s with
  | nil => cases h
  | cons c s ih =>
    rw [words, wordsFrom] at h
    by_cases hc : isBlank c = true
    · rw [trimStart, List.dropWhile_cons_of_pos hc]
      rw [if_pos hc, if_pos List.isEmpty_nil] at h
      exact ih h
    · rw [trimStart, List.dropWhile_cons_of_neg hc]
      rw [if_neg hc] at h
      exact exists_append_of_wordsFrom (List.cons_ne_nil c []) h

/-- A text with a character that is not blank is not trimmed away. -/
theorem trim_ne_nil {s : List Char} {c : Char} (hc : c ∈ s) (hblank : isBlank c = false) :
    trim s ≠ [] := by
  have hstart : c ∈ trimStart s := by
    rw [← List.takeWhile_append_dropWhile (p := isBlank) (l := s), List.mem_append] at hc
    refine hc.resolve_left fun htake => ?_
    exact Bool.false_ne_true (hblank.symm.trans (List.mem_takeWhile_imp htake))
  intro hnil
  rw [trim, trimEnd, List.reverse_eq_nil_iff, List.dropWhile_eq_nil_iff] at hnil
  exact Bool.false_ne_true (hblank.symm.trans (hnil c (List.mem_reverse.2 hstart)))

theorem trimStart_of_head? {s : List Char} (h : ∀ c ∈ s.head?, isBlank c = false) :
    trimStart s = s := by
  cases s with
  | nil => rfl
  | cons c s =>
    rw [trimStart, List.dropWhile_cons_of_neg]
    rw [h c rfl]
    exact Bool.false_ne_true

theorem trimEnd_of_getLast? {s : List Char} (h : ∀ c ∈ s.getLast?, isBlank c = false) :
    trimEnd s = s := by
  have hstart : trimStart s.reverse = s.reverse := trimStart_of_head? (by simpa using h)
  rw [trimEnd, ← trimStart, hstart, List.reverse_reverse]

/-- What begins and ends in no blank is all that is left behind some blanks. -/
theorem trim_replicate_append {c : Char} (hc : isBlank c = true) (n : Nat) {s : List Char}
    (hfirst : ∀ c ∈ s.head?, isBlank c = false) (hlast : ∀ c ∈ s.getLast?, isBlank c = false) :
    trim (List.replicate n c ++ s) = s := by
  rw [trim, trimStart_replicate_append hc, trimStart_of_head? hfirst, trimEnd_of_getLast? hlast]

/-- A word has no blanks to be trimmed away. -/
theorem trim_of_isWord {w : List Char} (h : IsWord w) : trim w = w :=
  trim_replicate_append (show isBlank ' ' = true by decide) 0
    (fun c hc => h.2 c (List.mem_of_mem_head? hc)) fun c hc => h.2 c (List.mem_of_getLast? hc)

theorem trimStart_append {a : List Char} (h : trimStart a ≠ []) (b : List Char) :
    trimStart (a ++ b) = trimStart a ++ b := by
  rw [trimStart, List.dropWhile_append, if_neg]
  · rfl
  · rw [List.isEmpty_iff]
    exact h

end JarRemap.Text

/-!
## Numerals are read as they were written

The digits of a number in base ten are read back as the number, and so is every index of a
parameter.
-/

namespace JarRemap.Text

theorem range_of_isDigit {c : Char} (h : c.isDigit = true) : 48 ≤ c.toNat ∧ c.toNat ≤ 57 := by
  simpa [Char.isDigit, UInt32.le_iff_toNat_le] using h

theorem isBlank_of_isDigit {c : Char} (h : c.isDigit = true) : isBlank c = false := by
  obtain ⟨hlow, hhigh⟩ := range_of_isDigit h
  simp only [isBlank, Bool.or_eq_false_iff, Bool.and_eq_false_iff, decide_eq_false_iff_not,
    beq_eq_false_iff_ne]
  omega

theorem digit?_of_isDigit {c : Char} (h : c.isDigit = true) :
    digit? 10 c = some (c.toNat - '0'.toNat) := by
  have hzero : '0'.toNat = 48 := rfl
  have hrange := range_of_isDigit h
  have hvalue : c.toNat - 48 < 10 := by omega
  simp [digit?, hrange, hvalue]

theorem digitsFrom?_of_isDigit {s : List Char} (h : ∀ c ∈ s, c.isDigit = true) (value : Nat) :
    digitsFrom? 10 value s = some (Nat.ofDigitChars 10 s value) := by
  induction s generalizing value with
  | nil => rfl
  | cons c s ih =>
    have hc := digit?_of_isDigit (h c List.mem_cons_self)
    rw [digitsFrom?, hc, Option.bind_some, ih fun x hx => h x (List.mem_cons_of_mem c hx),
      Nat.ofDigitChars_cons, Nat.mul_comm]

/-- The digits of a number. -/
def decimal (n : Nat) : List Char := Nat.toDigits 10 n

theorem isDigit_of_mem_decimal {n : Nat} {c : Char} (h : c ∈ decimal n) : c.isDigit = true :=
  Nat.isDigit_of_mem_toDigits (by decide) (by decide) h

theorem not_mem_decimal {c : Char} (h : c.isDigit = false) (n : Nat) : c ∉ decimal n :=
  fun hc => Bool.false_ne_true (h.symm.trans (isDigit_of_mem_decimal hc))

theorem isWord_decimal (n : Nat) : IsWord (decimal n) :=
  ⟨Nat.toDigits_ne_nil, fun _ hc => isBlank_of_isDigit (isDigit_of_mem_decimal hc)⟩

theorem numeral?_decimal {n bound : Nat} (h : n < bound) :
    numeral? 10 bound (decimal n) = some n := by
  have hdigits : digitsFrom? 10 0 (decimal n) = some n := by
    rw [digitsFrom?_of_isDigit fun c hc => isDigit_of_mem_decimal hc]
    exact congrArg some Nat.ofDigitChars_ten_toDigits
  have hsign : ∀ rest, decimal n ≠ '+' :: rest := by
    intro rest hrest
    have hplus := isDigit_of_mem_decimal (n := n) (c := '+') (hrest ▸ List.mem_cons_self)
    exact absurd hplus (by decide)
  unfold numeral?
  split
  · next rest hrest => exact absurd hrest (hsign rest)
  · have hne : decimal n ≠ [] := Nat.toDigits_ne_nil
    simp [hdigits, hne, h]

/-- Every number of sixteen bits is read back from its digits. -/
theorem index?_decimal (index : UInt16) : index? (decimal index.toNat) = some index := by
  rw [index?, numeral?_decimal index.toNat_lt, Option.map_some]
  simp

end JarRemap.Text
