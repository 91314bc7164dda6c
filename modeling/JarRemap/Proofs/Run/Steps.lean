/-!
# Computations that keep what they wrote

A computation with a state may fail, and what it wrote before stays. Whatever it does is what its
steps do one after the other, up to the first that fails.
-/

namespace JarRemap

variable {ε σ α β : Type} {m : ExceptT ε (StateM σ) α} {f : α → ExceptT ε (StateM σ) β} {s s' : σ}

/-- A computation that keeps what it wrote before a fault, one step after the other. -/
theorem bind_eq_ok {b : β} (h : (m >>= f) s = (.ok b, s')) :
    ∃ a next, m s = (.ok a, next) ∧ f a next = (.ok b, s') := by
  have hrun : (m >>= f) s = ExceptT.bindCont f (m s).1 (m s).2 := rfl
  rw [hrun] at h
  rcases hm : m s with ⟨r, next⟩
  rw [hm] at h
  cases r with
  | error e => cases h
  | ok a => exact ⟨a, next, rfl, h⟩

theorem bind_of_ok {next : σ} {a : α} (h : m s = (.ok a, next)) : (m >>= f) s = f a next := by
  change ExceptT.bindCont f (m s).1 (m s).2 = f a next
  rw [h]
  rfl

theorem bind_of_error {e : ε} (h : m s = (.error e, s')) : (m >>= f) s = (.error e, s') := by
  change ExceptT.bindCont f (m s).1 (m s).2 = _
  rw [h]
  rfl

/-- A fault comes from the first step, or from the rest behind it. -/
theorem bind_eq_error {e : ε} (h : (m >>= f) s = (.error e, s')) :
    m s = (.error e, s') ∨ ∃ a next, m s = (.ok a, next) ∧ f a next = (.error e, s') := by
  rcases hm : m s with ⟨r, next⟩
  cases r with
  | error e' =>
    rw [bind_of_error hm] at h
    cases h
    exact .inl rfl
  | ok a =>
    rw [bind_of_ok hm] at h
    exact .inr ⟨a, next, rfl, h⟩

section Loop

variable {step : β → α → ExceptT ε (StateM σ) β} {b b' : β}

/-- A loop that goes well has gone well up to any point, and from there on. -/
theorem foldlM_append_eq_ok {l l' : List α} (h : (l ++ l').foldlM step b s = (.ok b', s')) :
    ∃ mid next, l.foldlM step b s = (.ok mid, next) ∧
      l'.foldlM step mid next = (.ok b', s') := by
  rw [List.foldlM_append] at h
  exact bind_eq_ok h

/-- A loop fails at one of its items, behind others that went well. -/
theorem foldlM_eq_error {e : ε} {l : List α} (h : l.foldlM step b s = (.error e, s')) :
    ∃ done a rest mid next, l = done ++ a :: rest ∧ done.foldlM step b s = (.ok mid, next) ∧
      step mid a next = (.error e, s') := by
  induction l generalizing b s with
  | nil => cases h
  | cons a l ih =>
    rw [List.foldlM_cons] at h
    rcases bind_eq_error h with hfirst | ⟨mid, next, hfirst, hrest⟩
    · exact ⟨[], a, l, b, s, rfl, rfl, hfirst⟩
    · obtain ⟨done, a', rest, last, next', rfl, hdone, hlast⟩ := ih hrest
      refine ⟨a :: done, a', rest, last, next', rfl, ?_, hlast⟩
      rw [List.foldlM_cons, bind_of_ok hfirst]
      exact hdone

end Loop

end JarRemap
