import JarRemap.Proofs.Merge.Record

/-!
# Changing lists a second time

A record changes the first element of a list that it speaks of, or puts a new one behind the others.
If the same records come once more, the list they change is all the time somewhere between the one
that they changed the first time and the one that they made of it in the end: each element agrees
with one of the two in everything that is written over. This is kept step by step, as long as each
record hits the element it hit before. Once the first time is over, the two lists are one.
-/

namespace JarRemap

/-- What is done to a list of elements: the first one that fits is changed; if none does, a new one
may be made of a base and put behind them. -/
structure Act (α : Type) where
  fits : α → Bool
  change : α → α
  base : Option α

namespace Act

variable {α : Type} {a : Act α} {x z : α} {l m n : List α} {creates : Bool}
  {keeps : α → α → Prop} {between : α → α → α → Prop}

def run (a : Act α) (l : List α) : List α :=
  match l.findIdx? a.fits with
  | some i => l.modify i a.change
  | none => l ++ (a.base.map a.change).toList

theorem run_nil (a : Act α) : a.run [] = (a.base.map a.change).toList := rfl

theorem run_cons_of_fits (h : a.fits x = true) (l : List α) : a.run (x :: l) = a.change x :: l := by
  rw [run, List.findIdx?_cons, if_pos h]
  rfl

theorem run_cons_of_not_fits (h : a.fits x = false) (l : List α) :
    a.run (x :: l) = x :: a.run l := by
  rw [run, List.findIdx?_cons, if_neg (by rw [h]; exact Bool.false_ne_true), run]
  cases l.findIdx? a.fits with
  | none => rfl
  | some i => rfl

/-- A later form of a list has a later form of each element in its place, and new elements behind
them if there may be any. -/
inductive Grows (keeps : α → α → Prop) (creates : Bool) : List α → List α → Prop
  | behind (rest : List α) (h : creates = false → rest = []) : Grows keeps creates [] rest
  | cons {x z : α} {l n : List α} (first : keeps x z) (rest : Grows keeps creates l n) :
      Grows keeps creates (x :: l) (z :: n)

theorem Grows.refl (hrefl : ∀ x, keeps x x) (l : List α) : Grows keeps creates l l := by
  induction l with
  | nil => exact .behind [] fun _ => rfl
  | cons x l ih => exact .cons (hrefl x) ih

theorem Grows.trans (htrans : ∀ x y z, keeps x y → keeps y z → keeps x z)
    (h : Grows keeps creates l m) (h' : Grows keeps creates m n) : Grows keeps creates l n := by
  induction h generalizing n with
  | behind rest hrest =>
    refine .behind n fun hcreates => ?_
    rw [hrest hcreates] at h'
    cases h' with
    | behind _ hnone => exact hnone hcreates
  | cons first _ ih =>
    cases h' with
    | cons first' rest' => exact .cons (htrans _ _ _ first first') (ih rest')

theorem Grows.keeps_of_getElem? (h : Grows keeps creates l n) {i : Nat} (hx : l[i]? = some x)
    (hz : n[i]? = some z) : keeps x z := by
  induction h generalizing i with
  | behind rest _ => cases hx
  | cons first _ ih =>
    cases i with
    | zero =>
      cases hx
      cases hz
      exact first
    | succ i => exact ih hx hz

/-- What is done to a list gives a later form of it. -/
theorem grows_run (hrefl : ∀ x, keeps x x) (hchange : ∀ x, keeps x (a.change x))
    (hbase : creates = false → a.base = none) (l : List α) :
    Grows keeps creates l (a.run l) := by
  induction l with
  | nil =>
    refine .behind _ fun hcreates => ?_
    rw [run_nil, hbase hcreates]
    rfl
  | cons x l ih =>
    cases hfits : a.fits x with
    | true =>
      rw [run_cons_of_fits hfits]
      exact .cons (hchange x) (.refl hrefl l)
    | false =>
      rw [run_cons_of_not_fits hfits]
      exact .cons (hrefl x) ih

/-- A list on its way from one form to a later one. Elements that the earlier form has not got yet
are already as they are in the end. -/
inductive Along (keeps : α → α → Prop) (between : α → α → α → Prop) :
    List α → List α → List α → Prop
  | behind (rest : List α) : Along keeps between [] rest rest
  | cons {x y z : α} {l m n : List α} (kept : keeps x z) (first : between x y z)
      (rest : Along keeps between l m n) : Along keeps between (x :: l) (y :: m) (z :: n)

theorem Along.start (hstart : ∀ x z, keeps x z → between x z z) (h : Grows keeps creates l n) :
    Along keeps between l n n := by
  induction h with
  | behind rest _ => exact .behind rest
  | cons first _ ih => exact .cons first (hstart _ _ first) ih

/-- Between a form and itself there is nothing else. -/
theorem Along.eq (heq : ∀ y z, between z y z → y = z) (h : Along keeps between l m n)
    (hlast : l = n) : m = n := by
  induction h with
  | behind rest => rfl
  | cons _ first _ ih =>
    cases hlast
    rw [heq _ _ first, ih rfl]

/-- What an act has to do with the forms of the elements it is for. -/
structure Respects (a : Act α) (keeps : α → α → Prop) (between : α → α → α → Prop) : Prop where
  /-- An element fits on its way if it fits in the end. -/
  stays : ∀ x y z, keeps x z → between x y z → a.fits y = a.fits z
  /-- What fits in the end has always fitted. -/
  earlier : ∀ x z, keeps x z → a.fits z = true → a.fits x = true
  step : ∀ x y z, keeps (a.change x) z → between x y z → between (a.change x) (a.change y) z
  start : ∀ x z, keeps x z → between x z z
  /-- What is made of the base fits from then on, and is a later form of the base. -/
  made : ∀ b, a.base = some b → ∀ z, keeps (a.change b) z → a.fits z = true ∧ keeps b z

/-- Whether the element that fits first still fits in the end. -/
def Hits (a : Act α) (l n : List α) : Prop :=
  ∀ i, l.findIdx? a.fits = some i → ∀ z, n[i]? = some z → a.fits z = true

/-- Doing the same to a list and to one on its way from there to the end keeps it on its way. -/
theorem Along.run (ha : a.Respects keeps between) (hcreates : a.base = none → creates = false)
    (h : Along keeps between l m n) (hgrows : Grows keeps creates (a.run l) n)
    (hhits : a.Hits l n) : Along keeps between (a.run l) (a.run m) n := by
  induction h with
  | behind rest =>
    rw [run_nil] at hgrows ⊢
    cases hbase : a.base with
    | none =>
      rw [hbase] at hgrows
      cases hgrows with
      | behind _ hnone =>
        rw [hnone (hcreates hbase), run_nil, hbase]
        exact .behind []
    | some b =>
      rw [hbase] at hgrows
      cases hgrows with
      | cons first _ =>
        obtain ⟨hfits, hkeeps⟩ := ha.made b hbase _ first
        rw [run_cons_of_fits hfits]
        exact .cons first (ha.step _ _ _ first (ha.start _ _ hkeeps)) (.behind _)
  | @cons x y z l m n kept first rest ih =>
    cases hfits : a.fits x with
    | true =>
      rw [run_cons_of_fits hfits] at hgrows ⊢
      cases hgrows with
      | cons changed _ =>
        have hlast : a.fits z = true :=
          hhits 0 (by rw [List.findIdx?_cons, if_pos hfits]) z rfl
        rw [run_cons_of_fits ((ha.stays _ _ _ kept first).trans hlast)]
        exact .cons changed (ha.step _ _ _ changed first) rest
    | false =>
      rw [run_cons_of_not_fits hfits] at hgrows ⊢
      cases hgrows with
      | cons _ hrest =>
        have hlast : a.fits z = false := by
          rw [← Bool.not_eq_true]
          intro hz
          rw [ha.earlier _ _ kept hz] at hfits
          cases hfits
        rw [run_cons_of_not_fits ((ha.stays _ _ _ kept first).trans hlast)]
        refine .cons kept first (ih hrest fun i hi w hw => hhits (i + 1) ?_ w hw)
        rw [List.findIdx?_cons, if_neg (by rw [hfits]; exact Bool.false_ne_true), hi]
        rfl

/-- An act hits the same element again if what it changes fits from then on. -/
theorem hits_of_change (hfits : ∀ x z, a.fits x = true → keeps (a.change x) z → a.fits z = true)
    (h : Grows keeps creates (a.run l) n) : a.Hits l n := by
  induction l generalizing n with
  | nil =>
    intro i hi
    cases hi
  | cons x l ih =>
    intro i hi w hw
    rw [List.findIdx?_cons] at hi
    cases hx : a.fits x with
    | true =>
      rw [run_cons_of_fits hx] at h
      rw [if_pos hx] at hi
      cases hi
      cases h with
      | cons first _ =>
        cases hw
        exact hfits x _ hx first
    | false =>
      rw [run_cons_of_not_fits hx] at h
      rw [if_neg (by rw [hx]; exact Bool.false_ne_true)] at hi
      obtain ⟨j, hj, rfl⟩ := Option.map_eq_some_iff.1 hi
      cases h with
      | cons _ rest => exact ih rest j hj w hw

end Act

/-- One of two values. -/
def Either {α : Type} (x y z : α) : Prop := y = x ∨ y = z

namespace Names

/-- Names on their way from one form to a later one: the name in each column is that of one of the
two. -/
structure Between (x y z : Names) : Prop where
  column : ∀ column, Either (x.get? column) (y.get? column) (z.get? column)
  longer : z.length ≤ y.length
  shorter : y.length ≤ max x.length z.length

variable {x y z : Names}

theorem Between.start (x z : Names) : Between x z z :=
  ⟨fun _ => .inr rfl, Nat.le_refl _, Nat.le_max_right _ _⟩

theorem ext_get? (hlength : y.length = z.length) (h : ∀ column, y.get? column = z.get? column) :
    y = z := by
  refine List.ext_getElem hlength fun i hy hz => ?_
  have hi := h i
  rwa [get?, get?, List.getElem?_eq_getElem hy, List.getElem?_eq_getElem hz, Option.join_some,
    Option.join_some] at hi

theorem Between.eq (h : Between z y z) : y = z := by
  refine ext_get? (Nat.le_antisymm ?_ h.longer) fun column => (h.column column).elim id id
  exact Nat.le_trans h.shorter (Nat.le_of_eq (Nat.max_self _))

theorem length_set (names : Names) (column : Nat) (name : String) :
    (names.set column name).length = max names.length (column + 1) := by
  rw [set, List.length_set, List.length_append, List.length_replicate]
  omega

/-- A name that is set twice is the second one. -/
theorem set_set (names : Names) (column : Nat) (first second : String) :
    (names.set column first).set column second = names.set column second := by
  refine ext_get? ?_ fun other => ?_
  · simp only [length_set]
    omega
  · simp only [get?_set]
    split <;> rfl

/-- A column that is written in both forms has the new name in both. -/
theorem Between.set (h : Between x y z) (column : Nat) (name : String) :
    Between (x.set column name) (y.set column name) z := by
  have hlonger := h.longer
  have hshorter := h.shorter
  refine ⟨fun other => ?_, ?_, ?_⟩
  · rw [get?_set, get?_set]
    split
    · exact .inl rfl
    · exact h.column other
  · rw [length_set]
    omega
  · rw [length_set, length_set]
    omega

theorem Between.write (h : Between x y z) (columns : List Nat) (r : Record) (start : Nat) :
    Between (x.write columns r start) (y.write columns r start) z := by
  unfold Names.write
  generalize (columns.zip r.names).drop start = entries
  induction entries generalizing x y with
  | nil => exact h
  | cons e entries ih =>
    obtain ⟨column, name⟩ := e
    cases name with
    | none => exact ih h
    | some name => exact ih (h.set column name)

end Names

/-- A comment that is written over is the same in both forms. -/
theorem Record.either_commentOver {x y z : Option String} (h : Either x y z) (r : Record) :
    Either (r.commentOver x) (r.commentOver y) z := by
  unfold commentOver
  cases r.comment with
  | none => exact h
  | some comment => exact .inl rfl

end JarRemap
