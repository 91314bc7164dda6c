import JarRemap.Text.Cut
import Mathlib.Data.List.Basic
import Mathlib.Data.List.TakeWhile

/-!
# Texts in parts

Texts that are split at every separator, or cut at one of them.
-/

/-!
## Splitting texts

A text is split at each separator, so what stands on the two sides of one is split on its own, and
the last part is empty only behind a separator.
-/

namespace JarRemap.Text

variable {c : Char} {s : List Char}

theorem splitOn_ne_nil (c : Char) (s : List Char) : splitOn c s ≠ [] := by
  cases s with
  | nil => exact List.cons_ne_nil _ _
  | cons x rest =>
    unfold splitOn
    split
    · exact List.cons_ne_nil _ _
    · intro hnil
      exact splitOn_ne_nil c rest (List.modifyHead_eq_nil_iff.1 hnil)

theorem splitOn_append_cons (c : Char) (before behind : List Char) :
    splitOn c (before ++ c :: behind) = splitOn c before ++ splitOn c behind := by
  induction before with
  | nil => simp [splitOn]
  | cons x before ih =>
    rw [List.cons_append, splitOn, splitOn, ih]
    split
    · rfl
    · rcases hparts : splitOn c before with _ | ⟨part, parts⟩
      · exact absurd hparts (splitOn_ne_nil c before)
      · rfl

theorem splitOn_of_not_mem (h : c ∉ s) : splitOn c s = [s] := by
  induction s with
  | nil => rfl
  | cons x s ih =>
    rw [List.mem_cons, not_or] at h
    rw [splitOn, if_neg (Ne.symm h.1), ih h.2]
    rfl

/-- Parts behind separators are split as they were joined. -/
theorem splitOn_flatMap {parts : List (List Char)} (h : c ∉ s) (hparts : ∀ part ∈ parts, c ∉ part) :
    splitOn c (s ++ parts.flatMap fun part => c :: part) = s :: parts := by
  induction parts generalizing s with
  | nil => rw [List.flatMap_nil, List.append_nil, splitOn_of_not_mem h]
  | cons part parts ih =>
    obtain ⟨hpart, hrest⟩ := List.forall_mem_cons.1 hparts
    rw [List.flatMap_cons, List.cons_append, splitOn_append_cons, splitOn_of_not_mem h,
      ih hpart hrest, List.singleton_append]

/-- Only behind a separator the last part is empty. -/
theorem getLast?_splitOn_ne (hne : s ≠ []) (h : s.getLast? ≠ some c) :
    (splitOn c s).getLast? ≠ some [] := by
  induction s with
  | nil => exact absurd rfl hne
  | cons x s ih =>
    cases s with
    | nil =>
      have hx : x ≠ c := fun hx => h (congrArg some hx)
      rw [splitOn, if_neg hx]
      simp [splitOn]
    | cons y s =>
      rw [List.getLast?_cons_cons] at h
      have hrest := ih (List.cons_ne_nil _ _) h
      rw [splitOn]
      split
      · rw [List.getLast?_cons_of_ne_nil (splitOn_ne_nil c _)]
        exact hrest
      · rcases hparts : splitOn c (y :: s) with _ | ⟨part, _ | ⟨next, parts⟩⟩
        · exact absurd hparts (splitOn_ne_nil c _)
        · simp
        · rw [hparts] at hrest
          simpa using hrest

end JarRemap.Text

/-!
## Texts are cut where they were joined

A text that was joined at a character is cut there again, if the character stands nowhere else on
the side that the cut is looked for from. Parts are joined by another character if the one between
them is replaced.
-/

namespace JarRemap.Text

variable {c : Char} {a : List Char}

theorem cut?_of_not_mem (h : c ∉ a) : cut? c a = none := by
  induction a with
  | nil => rfl
  | cons x a ih =>
    rw [List.mem_cons, not_or] at h
    rw [cut?, if_neg (Ne.symm h.1), ih h.2]
    rfl

theorem cut?_append_cons (h : c ∉ a) (b : List Char) : cut? c (a ++ c :: b) = some (a, b) := by
  induction a with
  | nil => simp [cut?]
  | cons x a ih =>
    rw [List.mem_cons, not_or] at h
    rw [List.cons_append, cut?, if_neg (Ne.symm h.1), ih h.2]
    rfl

theorem cutLast?_of_not_mem (h : c ∉ a) : cutLast? c a = none := by
  rw [cutLast?, cut?_of_not_mem (by simpa using h)]
  rfl

theorem cutLast?_append_cons {b : List Char} (h : c ∉ b) (a : List Char) :
    cutLast? c (a ++ c :: b) = some (a, b) := by
  have hreverse : (a ++ c :: b).reverse = b.reverse ++ c :: a.reverse := by simp
  rw [cutLast?, hreverse, cut?_append_cons (by simpa using h)]
  simp

theorem takeWhile_ne_of_not_mem (h : c ∉ a) : a.takeWhile (· ≠ c) = a :=
  List.takeWhile_eq_self_iff.2 fun _ hx => decide_eq_true (ne_of_mem_of_not_mem hx h)

theorem dropWhile_ne_of_not_mem (h : c ∉ a) : a.dropWhile (· ≠ c) = [] :=
  List.dropWhile_eq_nil_iff.2 fun _ hx => decide_eq_true (ne_of_mem_of_not_mem hx h)

theorem takeWhile_ne_append_cons (h : c ∉ a) (b : List Char) :
    (a ++ c :: b).takeWhile (· ≠ c) = a := by
  rw [List.takeWhile_append_of_pos fun _ hx => decide_eq_true (ne_of_mem_of_not_mem hx h),
    List.takeWhile_cons_of_neg (by simp), List.append_nil]

theorem dropWhile_ne_append_cons (h : c ∉ a) (b : List Char) :
    (a ++ c :: b).dropWhile (· ≠ c) = c :: b := by
  rw [List.dropWhile_append_of_pos fun _ hx => decide_eq_true (ne_of_mem_of_not_mem hx h),
    List.dropWhile_cons_of_neg (by simp)]

/-- Parts that are joined are split again, if there is one. -/
theorem splitOn_intercalate {parts : List (List Char)} (hne : parts ≠ [])
    (h : ∀ part ∈ parts, c ∉ part) : splitOn c ([c].intercalate parts) = parts := by
  induction parts with
  | nil => exact absurd rfl hne
  | cons part parts ih =>
    obtain ⟨hpart, hparts⟩ := List.forall_mem_cons.1 h
    cases parts with
    | nil => rw [List.intercalate_singleton, splitOn_of_not_mem hpart]
    | cons next parts =>
      rw [List.intercalate_cons_cons, List.append_assoc, List.singleton_append,
        splitOn_append_cons, splitOn_of_not_mem hpart, ih (List.cons_ne_nil _ _) hparts,
        List.singleton_append]

theorem stripEnd?_eq_some_iff {mark s rest : List Char} :
    stripEnd? mark s = some rest ↔ rest ++ mark = s := by
  rw [stripEnd?, Option.map_eq_some_iff]
  constructor
  · rintro ⟨reversed, hreversed, rfl⟩
    rw [List.isPrefixOf?_eq_some_iff_append_eq] at hreversed
    rw [← List.reverse_reverse s, ← hreversed, List.reverse_append, List.reverse_reverse]
  · rintro rfl
    refine ⟨rest.reverse, ?_, List.reverse_reverse rest⟩
    rw [List.isPrefixOf?_eq_some_iff_append_eq, List.reverse_append]

theorem stripEnd?_append (a mark : List Char) : stripEnd? mark (a ++ mark) = some a :=
  stripEnd?_eq_some_iff.2 rfl

/-- A text is cut at the last place where a character stands. -/
theorem cutLast?_cases (c : Char) (s : List Char) :
    (c ∉ s ∧ cutLast? c s = none) ∨
      ∃ a b, s = a ++ c :: b ∧ c ∉ b ∧ cutLast? c s = some (a, b) := by
  by_cases h : c ∈ s
  · obtain ⟨b, a, hs, hb⟩ := List.eq_append_cons_of_mem (List.mem_reverse.2 h)
    have hparts : s = a.reverse ++ c :: b.reverse := by
      rw [← List.reverse_reverse s, hs]
      simp
    have hlast : c ∉ b.reverse := by simpa using hb
    exact .inr ⟨_, _, hparts, hlast, hparts ▸ cutLast?_append_cons hlast _⟩
  · exact .inl ⟨h, cutLast?_of_not_mem h⟩

theorem replace_append (c d : Char) (a b : List Char) :
    replace c d (a ++ b) = replace c d a ++ replace c d b :=
  List.map_append

theorem replace_of_not_mem (h : c ∉ a) (d : Char) : replace c d a = a := by
  have hsame : ∀ x ∈ a, (if x = c then d else x) = x :=
    fun x hx => if_neg (ne_of_mem_of_not_mem hx h)
  rw [replace, List.map_congr_left hsame, List.map_id']

theorem replace_cons_of_not_mem (h : c ∉ a) (d : Char) : replace c d (c :: a) = d :: a := by
  rw [replace, List.map_cons, if_pos rfl]
  exact congrArg (d :: ·) (replace_of_not_mem h d)

/-- A character that is written for another one can be taken back where it stood nowhere before. -/
theorem replace_replace (h : c ∉ a) (d : Char) : replace c d (replace d c a) = a := by
  rw [replace, replace, List.map_map]
  refine (List.map_congr_left fun x hx => ?_).trans (List.map_id a)
  have hne : x ≠ c := ne_of_mem_of_not_mem hx h
  by_cases hxd : x = d
  · simp [hxd]
  · simp [hxd, hne]

theorem not_mem_replace {d : Char} (h : c ≠ d) (a : List Char) : c ∉ replace c d a := by
  intro hmem
  obtain ⟨x, -, hx⟩ := List.mem_map.1 hmem
  split at hx
  · exact h hx.symm
  · next hne => exact hne hx

/-- Parts without a character that are joined by it are then joined by another one. -/
theorem replace_intercalate {parts : List (List Char)} (h : ∀ part ∈ parts, c ∉ part) (d : Char) :
    replace c d ([c].intercalate parts) = [d].intercalate parts := by
  induction parts with
  | nil => rfl
  | cons part parts ih =>
    obtain ⟨hpart, hparts⟩ := List.forall_mem_cons.1 h
    have hsame := replace_of_not_mem hpart d
    cases parts with
    | nil => rwa [List.intercalate_singleton, List.intercalate_singleton]
    | cons next parts =>
      have hmark : replace c d [c] = [d] := replace_cons_of_not_mem List.not_mem_nil d
      rw [List.intercalate_cons_cons, List.intercalate_cons_cons, replace_append, replace_append,
        hsame, hmark, ih hparts]

end JarRemap.Text
