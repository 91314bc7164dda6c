import JarRemap.Text.Slice
import JarRemap.Text.Cut
import Mathlib.Data.List.Infix

/-!
# Cuts at offsets that were looked up

A cut at the offset of a character or of a mark that was found in the text lies between two
characters, so it cannot crash, and its parts are those of the functions that cut at the character or
the mark itself.
-/

namespace JarRemap

namespace Checked

variable {ε ε' α β : Type}

@[simp] theorem ok_bind (a : α) (f : α → Checked ε β) : (Except.ok a >>= f) = f a := rfl

@[simp] theorem error_bind (stop : Stop ε) (f : α → Checked ε β) :
    (Except.error stop >>= f) = Except.error stop := rfl

@[simp] theorem pure_eq_ok (a : α) : (pure a : Checked ε α) = .ok a := rfl

@[simp] theorem lift_ok (a : α) : lift (.ok a : Except ε α) = .ok a := rfl

@[simp] theorem lift_error (e : ε) : lift (.error e : Except ε α) = fail e := rfl

@[simp] theorem fail_bind (e : ε) (f : α → Checked ε β) : (fail e >>= f) = fail e := rfl

theorem lift_bind (x : Except ε α) (f : α → Except ε β) :
    lift (x >>= f) = lift x >>= fun a => lift (f a) := by
  cases x <;> rfl

theorem lift_map (f : α → β) (x : Except ε α) : lift (x.map f) = (lift x).map f := by
  cases x <;> rfl

theorem lift_fmap (f : α → β) (x : Except ε α) :
    lift (f <$> x) = lift x >>= fun a => .ok (f a) := by
  cases x <;> rfl

theorem mapM_eq_ok {f : α → Checked ε β} {g : α → β} {l : List α}
    (h : ∀ a ∈ l, f a = .ok (g a)) : l.mapM f = .ok (l.map g) := by
  induction l with
  | nil => rfl
  | cons a l ih =>
    rw [List.mapM_cons, h a List.mem_cons_self, ih fun b hb => h b (List.mem_cons_of_mem a hb)]
    rfl

theorem mapError_lift (f : ε → ε') (x : Except ε α) :
    (lift x).mapError (Stop.map f) = lift (x.mapError f) := by
  cases x <;> rfl

@[simp] theorem need_some (c : Crash) (a : α) : (need c (some a) : Checked ε α) = .ok a := rfl

@[simp] theorem at_zero (a : α) (l : List α) : (at_ (a :: l) 0 : Checked ε α) = .ok a := rfl

@[simp] theorem at_succ (a : α) (l : List α) (i : Nat) :
    (at_ (a :: l) (i + 1) : Checked ε α) = at_ l i := rfl

@[simp] theorem from_zero (l : List α) : (from_ l 0 : Checked ε (List α)) = .ok l := rfl

@[simp] theorem from_succ (a : α) (l : List α) (i : Nat) :
    (from_ (a :: l) (i + 1) : Checked ε (List α)) = from_ l i := by
  simp [from_]

theorem sub_of_le {a b : Nat} (h : b ≤ a) : (sub a b : Checked ε Nat) = .ok (a - b) := if_pos h

/-- The index of what was pushed last. -/
@[simp] theorem sub_size_push (l : Array α) (a : α) :
    (sub (l.push a).size 1 : Checked ε Nat) = .ok l.size := by
  rw [Array.size_push, sub_of_le (Nat.le_add_left 1 _), Nat.add_sub_cancel]

end Checked

namespace Text

variable {ε : Type} {c : Char} {s a b : List Char}

@[simp] theorem byteLength_append (a b : List Char) :
    byteLength (a ++ b) = byteLength a + byteLength b := by
  induction a with
  | nil => simp
  | cons c a ih => simp [ih, Nat.add_assoc]

theorem byteLength_singleton (h : c.utf8Size = 1) : byteLength [c] = 1 := by simp [h]

theorem byteLength_eq_length (h : ∀ c ∈ s, c.utf8Size = 1) : byteLength s = s.length := by
  induction s with
  | nil => rfl
  | cons c s ih =>
    rw [byteLength_cons, h c List.mem_cons_self, ih fun x hx => h x (List.mem_cons_of_mem c hx),
      List.length_cons, Nat.add_comm]

section Cuts

/-- A text is cut between any two of its parts. -/
theorem splitAt?_append (a b : List Char) : splitAt? (byteLength a) (a ++ b) = some (a, b) := by
  induction a with
  | nil => cases b <;> rfl
  | cons c a ih =>
    obtain ⟨n, hn⟩ := Nat.exists_eq_succ_of_ne_zero (n := byteLength (c :: a))
      (by have := c.utf8Size_pos; simp; omega)
    have hrest : n + 1 - c.utf8Size = byteLength a := by
      rw [byteLength_cons] at hn
      omega
    rw [byteLength_cons] at hn ⊢
    rw [hn, List.cons_append, splitAt?, if_pos (by omega), hrest, ih]
    rfl

@[simp] theorem upTo_append (a b : List Char) :
    (upTo (a ++ b) (byteLength a) : Checked ε (List Char)) = .ok a := by
  rw [upTo, splitAt?_append]
  rfl

@[simp] theorem behind_append (a b : List Char) :
    (behind (a ++ b) (byteLength a) : Checked ε (List Char)) = .ok b := by
  rw [behind, splitAt?_append]
  rfl

/-- The text behind a mark. -/
theorem behind_mark (a mark b : List Char) :
    (behind (a ++ mark ++ b) (byteLength a + byteLength mark) : Checked ε (List Char)) = .ok b := by
  rw [← byteLength_append, behind_append]

/-- The text behind a character of one byte. -/
theorem behind_cons (hc : c.utf8Size = 1) (a b : List Char) :
    (behind (a ++ c :: b) (byteLength a + 1) : Checked ε (List Char)) = .ok b := by
  have hmark : a ++ c :: b = a ++ [c] ++ b := by simp
  rw [hmark, ← byteLength_singleton hc, behind_mark]

/-- The text between two characters of which the first has one byte. -/
theorem between_append (hc : c.utf8Size = 1) (a b rest : List Char) :
    (between (a ++ c :: (b ++ rest)) (byteLength a + 1) (byteLength a + 1 + byteLength b) :
      Checked ε (List Char)) = .ok b := by
  have hlast : byteLength a + 1 + byteLength b = byteLength (a ++ c :: b) := by
    simp [hc]; omega
  have hparts : a ++ c :: (b ++ rest) = (a ++ c :: b) ++ rest := by simp
  rw [between, hlast, hparts, upTo_append, Checked.ok_bind, behind_cons hc]

end Cuts

section Characters

theorem cut?_eq_some (h : cut? c s = some (a, b)) : s = a ++ c :: b := by
  induction s generalizing a with
  | nil => cases h
  | cons x s ih =>
    rw [cut?] at h
    split at h
    · rename_i hx
      obtain ⟨rfl, rfl⟩ := Prod.mk.inj (Option.some.inj h)
      rw [hx, List.nil_append]
    · obtain ⟨⟨before, behind⟩, hcut, hparts⟩ := Option.map_eq_some_iff.1 h
      obtain ⟨rfl, rfl⟩ := Prod.mk.inj hparts
      rw [ih hcut, List.cons_append]

/-- A character is found where the text is cut at it. -/
theorem find?_eq (c : Char) (s : List Char) :
    find? (· = c) s = (cut? c s).map fun parts => byteLength parts.1 := by
  induction s with
  | nil => rfl
  | cons x s ih =>
    rw [find?, cut?]
    by_cases hx : x = c
    · simp [hx]
    · simp only [hx, decide_false, Bool.false_eq_true, if_false, ih, Option.map_map]
      rfl

theorem find?_of_cut? (h : cut? c s = some (a, b)) : find? (· = c) s = some (byteLength a) := by
  rw [find?_eq, h]
  rfl

theorem upTo_of_cut? (h : cut? c s = some (a, b)) :
    (upTo s (byteLength a) : Checked ε (List Char)) = .ok a := by
  rw [cut?_eq_some h, upTo_append]

theorem behind_of_cut? (h : cut? c s = some (a, b)) (hc : c.utf8Size = 1) :
    (behind s (byteLength a + 1) : Checked ε (List Char)) = .ok b := by
  rw [cut?_eq_some h, behind_cons hc]

/-- The first place of a character in two texts. -/
theorem find?_append (p : Char → Bool) (a b : List Char) :
    find? p (a ++ b) = if a.any p then find? p a else (find? p b).map (byteLength a + ·) := by
  induction a with
  | nil => simp
  | cons x a ih =>
    rw [List.cons_append, find?, find?, List.any_cons, ih]
    cases hx : p x with
    | true => simp
    | false =>
      cases ha : a.any p with
      | true => simp
      | false =>
        simp only [Bool.false_eq_true, Bool.or_self, if_false, Option.map_map, byteLength_cons]
        congr 1
        funext n
        simp [Nat.add_assoc]

theorem find?_lt {p : Char → Bool} {n : Nat} (h : find? p s = some n) : n < byteLength s := by
  induction s generalizing n with
  | nil => cases h
  | cons x s ih =>
    rw [find?] at h
    rw [byteLength_cons]
    have := x.utf8Size_pos
    split at h
    · obtain rfl := Option.some.inj h
      omega
    · obtain ⟨m, hm, rfl⟩ := Option.map_eq_some_iff.1 h
      have := ih hm
      omega

theorem cut?_append (c : Char) (a b : List Char) :
    cut? c (a ++ b) =
      match cut? c a with
      | some parts => some (parts.1, parts.2 ++ b)
      | none => (cut? c b).map fun parts => (a ++ parts.1, parts.2) := by
  induction a with
  | nil => simp [cut?]
  | cons x a ih =>
    rw [List.cons_append, cut?, cut?]
    by_cases hx : x = c
    · simp [hx]
    · rw [if_neg hx, if_neg hx, ih]
      cases cut? c a with
      | some parts => rfl
      | none => simp [Function.comp_def]

theorem cutLast?_cons (c x : Char) (s : List Char) :
    cutLast? c (x :: s) =
      match cutLast? c s with
      | some parts => some (x :: parts.1, parts.2)
      | none => if x = c then some ([], s) else none := by
  rw [cutLast?, cutLast?, List.reverse_cons, cut?_append]
  cases cut? c s.reverse with
  | some parts => simp
  | none =>
    by_cases hx : x = c
    · simp [cut?, hx]
    · simp [cut?, hx]

/-- A character is found last where the text is cut at its last occurrence. -/
theorem findLast?_eq (c : Char) (s : List Char) :
    findLast? (· = c) s = (cutLast? c s).map fun parts => byteLength parts.1 := by
  induction s with
  | nil => rfl
  | cons x s ih =>
    rw [findLast?, cutLast?_cons, ih]
    cases cutLast? c s with
    | some parts => rfl
    | none =>
      by_cases hx : x = c
      · simp [hx]
      · simp [hx]

theorem cutLast?_eq_some (h : cutLast? c s = some (a, b)) : s = a ++ c :: b := by
  obtain ⟨⟨behind, before⟩, hcut, hparts⟩ := Option.map_eq_some_iff.1 h
  obtain ⟨rfl, rfl⟩ := Prod.mk.inj hparts
  rw [← List.reverse_reverse s, cut?_eq_some hcut]
  simp

theorem takeWhile_ne_eq (c : Char) (s : List Char) :
    (s.takeWhile fun x => x ≠ c) = ((cut? c s).map Prod.fst).getD s := by
  induction s with
  | nil => rfl
  | cons x s ih =>
    rw [cut?]
    by_cases hx : x = c
    · simp [hx]
    · rw [List.takeWhile_cons_of_pos (by simp [hx]), ih, if_neg hx]
      cases cut? c s <;> rfl

end Characters

section Marks

variable {mark : List Char}

/-- A mark is found where the text is cut at it. -/
theorem findMark?_eq (mark s : List Char) :
    findMark? mark s = (cutAt? mark s).map fun parts => byteLength parts.1 := by
  induction s with
  | nil =>
    rw [findMark?, cutAt?]
    split <;> rfl
  | cons x s ih =>
    rw [findMark?, cutAt?, ih, ← List.isSome_isPrefixOf?_eq_isPrefixOf]
    cases mark.isPrefixOf? (x :: s) with
    | some rest => rfl
    | none => simp [Function.comp_def]

theorem cutAt?_eq_some (h : cutAt? mark s = some (a, b)) : s = a ++ mark ++ b := by
  induction s generalizing a with
  | nil =>
    rw [cutAt?] at h
    split at h
    · rename_i hmark
      obtain ⟨rfl, rfl⟩ := Prod.mk.inj (Option.some.inj h)
      rw [List.isEmpty_iff.1 hmark]
      rfl
    · cases h
  | cons x s ih =>
    rw [cutAt?] at h
    cases hstart : mark.isPrefixOf? (x :: s) with
    | some rest =>
      simp only [hstart, Option.some.injEq, Prod.mk.injEq] at h
      obtain ⟨rfl, rfl⟩ := h
      rw [List.isPrefixOf?_eq_some_iff_append_eq] at hstart
      simp [hstart]
    | none =>
      simp only [hstart] at h
      obtain ⟨⟨before, behind⟩, hcut, hparts⟩ := Option.map_eq_some_iff.1 h
      obtain ⟨rfl, rfl⟩ := Prod.mk.inj hparts
      rw [ih hcut]
      simp

end Marks

end Text

end JarRemap
