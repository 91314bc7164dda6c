import JarRemap.Proofs.Text.Slice
import JarRemap.Descriptor
import JarRemap.Format.Bytewise.Reader

/-!
# Readers that cannot leave the bounds

A reader of lines whose steps do not crash reads what the reader without offsets and indices reads.
Where the two keep different things in mind, their steps are related state by state.
-/

namespace JarRemap.Format.Bytewise

open Checked (lift)

variable {ε ε' α β σ τ : Type}

theorem splitMember?_eq (word : List Char) :
    (splitMember? word : Checked ε _) = .ok (splitQualified? word) := by
  rw [splitMember?, splitQualified?, Text.findLast?_eq]
  cases hcut : Text.cutLast? '/' word with
  | none => rfl
  | some parts =>
    obtain rfl := Text.cutLast?_eq_some (a := parts.1) (b := parts.2) hcut
    simp [Text.behind_cons (c := '/') rfl]

/-- What was read before stays where it is. -/
theorem getElem?_push_of_eq_some {l : Array α} {i : Nat} {a : α} (h : l[i]? = some a) (b : α) :
    (l.push b)[i]? = some a := by
  rw [Array.getElem?_push, if_neg (Nat.ne_of_lt (Array.getElem?_eq_some_iff.1 h).1), h]

theorem onLine_lift (number : Nat) (x : Except Fault α) :
    onLine number (lift x) = lift (x.mapError (LineFault.mk number)) :=
  Checked.mapError_lift _ x

/-- Steps that agree on every line agree on all lines. -/
theorem readLines_eq {step : Step σ} {plain : Format.Step σ}
    (hstep : ∀ state line, step state line = lift (plain state line)) (state : σ)
    (lines : List (Nat × List Char)) :
    readLines step state lines = lift (Format.readLines plain state lines) := by
  induction lines generalizing state with
  | nil => rfl
  | cons item lines ih =>
    simp only [readLines, Format.readLines, Checked.lift_bind, ← onLine_lift, hstep, ih]
    rfl

/-- A text is refused at the first line that cannot be read. -/
theorem foldLines_eq_error_iff {plain : σ → List Char → Except Fault σ} {state : σ}
    {lines : List (Nat × List Char)} {number : Nat} {fault : Fault} :
    Format.foldLines plain state lines = .error ⟨number, fault⟩ ↔
      ∃ before line after last, lines = before ++ (number, line) :: after ∧
        Format.foldLines plain state before = .ok last ∧ plain last line = .error fault := by
  induction lines generalizing state with
  | nil => simp [Format.foldLines]
  | cons item lines ih =>
    obtain ⟨n, line⟩ := item
    cases hline : plain state line with
    | error e =>
      have hfold : Format.foldLines plain state ((n, line) :: lines) = .error ⟨n, e⟩ := by
        rw [Format.foldLines, hline]
        rfl
      rw [hfold, Except.error.injEq, LineFault.mk.injEq]
      constructor
      · rintro ⟨rfl, rfl⟩
        exact ⟨[], line, lines, state, rfl, rfl, hline⟩
      · rintro ⟨before, line', after, last, hlines, hbefore, hlast⟩
        rcases before with _ | ⟨first, before⟩
        · obtain ⟨hitem, -⟩ := List.cons.inj hlines
          obtain ⟨rfl, rfl⟩ := Prod.mk.inj hitem
          obtain rfl := Except.ok.inj hbefore
          exact ⟨rfl, Except.error.inj (hline.symm.trans hlast)⟩
        · obtain ⟨rfl, -⟩ := List.cons.inj hlines
          rw [Format.foldLines, hline] at hbefore
          cases hbefore
    | ok next =>
      have hfold : ∀ rest, Format.foldLines plain state ((n, line) :: rest) =
          Format.foldLines plain next rest := by
        intro rest
        rw [Format.foldLines, hline]
        rfl
      rw [hfold, ih]
      constructor
      · rintro ⟨before, line', after, last, rfl, hbefore, hlast⟩
        exact ⟨(n, line) :: before, line', after, last, rfl, (hfold before).trans hbefore, hlast⟩
      · rintro ⟨before, line', after, last, hlines, hbefore, hlast⟩
        rcases before with _ | ⟨first, before⟩
        · obtain ⟨hitem, -⟩ := List.cons.inj hlines
          obtain ⟨rfl, rfl⟩ := Prod.mk.inj hitem
          obtain rfl := Except.ok.inj hbefore
          cases hline.symm.trans hlast
        · obtain ⟨rfl, rfl⟩ := List.cons.inj hlines
          exact ⟨before, line', after, last, rfl, (hfold before).symm.trans hbefore, hlast⟩

/-- Steps that agree on every line from states of an invariant agree on all lines. -/
theorem foldLines_eq {step : σ → List Char → Checked Fault σ}
    {plain : σ → List Char → Except Fault σ} {P : σ → Prop}
    (hstep : ∀ state line, P state → step state line = lift (plain state line))
    (hkeeps : ∀ state line next, P state → plain state line = .ok next → P next) {state : σ}
    (h : P state) (lines : List (Nat × List Char)) :
    foldLines step state lines = lift (Format.foldLines plain state lines) := by
  induction lines generalizing state with
  | nil => rfl
  | cons item lines ih =>
    obtain ⟨number, line⟩ := item
    rw [foldLines, Format.foldLines, hstep state line h, onLine_lift, Checked.lift_bind]
    cases hnext : plain state line with
    | error e => rfl
    | ok next => exact ih (hkeeps state line next h hnext)

/-- A computation that may crash follows another one: it stops as `stop` says where the other one
has an error, and gives a related value where the other one gives one. -/
def Follows (stop : ε → Stop ε') (R : α → β → Prop) (x : Checked ε' α) (y : Except ε β) : Prop :=
  match y with
  | .ok b => ∃ a, x = .ok a ∧ R a b
  | .error e => x = .error (stop e)

section Follows

variable {stop : ε → Stop ε'} {R : α → β → Prop} {x : Checked ε' α} {y : Except ε β}

theorem follows_ok {a : α} {b : β} (h : R a b) : Follows stop R (.ok a) (.ok b) := ⟨a, rfl, h⟩

theorem follows_error (e : ε) : Follows stop R (.error (stop e)) (.error e) := rfl

theorem follows_lift {y : Except ε β} {R : β → β → Prop} (h : ∀ b, y = .ok b → R b b) :
    Follows Stop.error R (lift y) y := by
  cases y with
  | ok b => exact ⟨b, rfl, h b rfl⟩
  | error e => rfl

/-- What follows something and is then continued alike. -/
theorem Follows.bind {α' β' : Type} {Q : α' → β' → Prop} {f : α → Checked ε' α'}
    {g : β → Except ε β'} (h : Follows stop R x y)
    (hnext : ∀ a b, R a b → Follows stop Q (f a) (g b)) : Follows stop Q (x >>= f) (y >>= g) := by
  cases y with
  | ok b =>
    obtain ⟨a, rfl, hR⟩ := h
    exact hnext a b hR
  | error e =>
    obtain rfl := h
    rfl

theorem Follows.mapError {η η' : Type} {stop' : η → Stop η'} {f : ε → η} {f' : ε' → η'}
    (h : Follows stop R x y) (hstop : ∀ e, (stop e).map f' = stop' (f e)) :
    Follows stop' R (x.mapError (Stop.map f')) (y.mapError f) := by
  cases y with
  | ok b =>
    obtain ⟨a, rfl, hR⟩ := h
    exact ⟨a, rfl, hR⟩
  | error e =>
    obtain rfl := h
    exact congrArg Except.error (hstop e)

end Follows

/-- Going through lines, a step that follows another one from related states keeps to it. -/
theorem foldLines_follows {stop : Fault → Stop Fault} {stop' : LineFault → Stop LineFault}
    {R : σ → τ → Prop} {step : σ → List Char → Checked Fault σ}
    {plain : τ → List Char → Except Fault τ}
    (hstop : ∀ number e, (stop e).map (LineFault.mk number) = stop' ⟨number, e⟩)
    (hstep : ∀ s t line, R s t → Follows stop R (step s line) (plain t line)) {s : σ} {t : τ}
    (h : R s t) (lines : List (Nat × List Char)) :
    Follows stop' R (foldLines step s lines) (Format.foldLines plain t lines) := by
  induction lines generalizing s t with
  | nil => exact follows_ok h
  | cons item lines ih =>
    obtain ⟨number, line⟩ := item
    have hline := (hstep s t line h).mapError (hstop number)
    exact hline.bind fun _ _ hnext => ih hnext

end JarRemap.Format.Bytewise
