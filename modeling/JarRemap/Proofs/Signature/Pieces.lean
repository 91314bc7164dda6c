import JarRemap.Signature

/-!
# Signatures are made of their pieces

What is read off a text is the text: the pieces of a signature, one behind the other, spell it. A
map that renames nothing writes every piece as it was read, so it leaves every signature as it is.
-/

namespace JarRemap.Signature

/-- The text that a piece was read from. -/
def Piece.spelling : Piece → List Char
  | text s => s
  | outer name | inner _ _ name => name.toList

/-- The text that pieces were read from. -/
def spelling (pieces : List Piece) : List Char := pieces.flatMap Piece.spelling

@[simp] theorem spelling_nil : spelling [] = [] := rfl

@[simp] theorem spelling_cons (piece : Piece) (pieces : List Piece) :
    spelling (piece :: pieces) = piece.spelling ++ spelling pieces := rfl

@[simp] theorem spelling_append (a b : List Piece) :
    spelling (a ++ b) = spelling a ++ spelling b := List.flatMap_append

/-- What was read off a text is what the text begins with. -/
def Spells (s : List Char) (reading : Reading) : Prop :=
  ∀ pieces rest, reading = some (pieces, rest) → spelling pieces ++ rest = s

/-- What was read off a text is all of it. -/
def SpellsAll (s : List Char) (reading : Option (List Piece)) : Prop :=
  ∀ pieces, reading = some pieces → spelling pieces = s

section Readings

variable {s t : List Char} {pieces : List Piece} {reading : Reading}

theorem spells_none : Spells s none := fun _ _ h => nomatch h

theorem spells_some {rest : List Char} (h : spelling pieces ++ rest = s) :
    Spells s (some (pieces, rest)) := by
  rintro _ _ ⟨⟩
  exact h

theorem Spells.before (h : Spells t reading) (hs : spelling pieces ++ t = s) :
    Spells s (before pieces reading) := by
  intro all rest hall
  obtain ⟨⟨more, _⟩, hmore, hread⟩ := Option.map_eq_some_iff.1 hall
  cases hread
  rw [spelling_append, List.append_assoc, h more rest hmore, hs]

/-- Reading on behind what was read. -/
theorem Spells.bind {f : List Piece × List Char → Reading} (h : Spells t reading)
    (hf : ∀ pieces rest, spelling pieces ++ rest = t → Spells s (f (pieces, rest))) :
    Spells s (reading >>= f) := by
  intro all rest hall
  obtain ⟨⟨first, last⟩, hfirst, hall⟩ := Option.bind_eq_some_iff.1 hall
  exact hf first last (h first last hfirst) all rest hall

theorem Spells.bindAll {f : List Piece × List Char → Option (List Piece)} (h : Spells t reading)
    (hf : ∀ pieces rest, spelling pieces ++ rest = t → SpellsAll s (f (pieces, rest))) :
    SpellsAll s (reading >>= f) := by
  intro all hall
  obtain ⟨⟨first, last⟩, hfirst, hall⟩ := Option.bind_eq_some_iff.1 hall
  exact hf first last (h first last hfirst) all hall

theorem SpellsAll.bind {first : Option (List Piece)} {f : List Piece → Option (List Piece)}
    (h : SpellsAll t first) (hf : ∀ pieces, spelling pieces = t → SpellsAll s (f pieces)) :
    SpellsAll s (first >>= f) := by
  intro all hall
  obtain ⟨pieces, hpieces, hall⟩ := Option.bind_eq_some_iff.1 hall
  exact hf pieces (h pieces hpieces) all hall

theorem spellsAll_none : SpellsAll s none := fun _ h => nomatch h

theorem spellsAll_some (h : spelling pieces = s) : SpellsAll s (some pieces) := by
  rintro _ ⟨⟩
  exact h

/-- A name is read up to a character that ends it. -/
theorem identifier?_eq_some {stop : Char → Bool} {name rest : List Char}
    (h : identifier? stop s = some (name, rest)) :
    s = name ++ rest ∧ ∃ c tail, rest = c :: tail ∧ stop c = true := by
  unfold identifier? at h
  dsimp only at h
  split at h
  · cases h
  · next hfull =>
    cases h
    refine ⟨List.takeWhile_append_dropWhile.symm, ?_⟩
    cases hrest : s.dropWhile fun c => !stop c with
    | nil => simp [hrest] at hfull
    | cons c tail =>
      have hstop := List.head?_dropWhile_not (fun c => !stop c) s
      rw [hrest] at hstop
      exact ⟨c, tail, rfl, by simpa using hstop⟩

theorem spells_identifier {stop : Char → Bool} {f : List Char × List Char → Reading}
    (hf : ∀ name c tail, t = name ++ c :: tail → stop c = true → Spells s (f (name, c :: tail))) :
    Spells s (identifier? stop t >>= f) := by
  intro all rest hall
  obtain ⟨⟨name, last⟩, hname, hall⟩ := Option.bind_eq_some_iff.1 hall
  obtain ⟨hsplit, c, tail, rfl, hstop⟩ := identifier?_eq_some hname
  exact hf name c tail hsplit hstop all rest hall

end Readings

/-- Class types, the suffixes of class types, and type arguments are read as they stand. -/
theorem spells_types (fuel : Nat) :
    (∀ s, Spells s (reference fuel s)) ∧
      (∀ outer inner s, Spells s (suffixes fuel outer inner s)) ∧
        ∀ s, Spells s (arguments fuel s) := by
  induction fuel with
  | zero =>
    refine ⟨fun s => ?_, fun outer inner s => ?_, fun s => ?_⟩
    · simp only [reference]
      exact spells_none
    · exact spells_none
    · exact spells_none
  | succ fuel ih =>
    obtain ⟨href, hsuf, harg⟩ := ih
    refine ⟨fun s => ?_, fun outer inner s => ?_, fun s => ?_⟩
    · unfold reference
      split
      · next rest hfuel =>
        cases hfuel
        refine spells_identifier fun name c tail hsplit _ => (hsuf _ _ _).before ?_
        simp [Piece.spelling, hsplit]
      · refine spells_identifier fun name c tail hsplit hstop => spells_some ?_
        simp only [decide_eq_true_eq] at hstop
        simp [Piece.spelling, hsplit, hstop]
      · next c rest hfuel =>
        cases hfuel
        split
        · exact spells_some rfl
        · exact (href _).before rfl
      · exact spells_none
    · unfold suffixes
      dsimp only
      split
      case' h_1 rest => refine ((harg rest).before List.singleton_append).bind ?_
      case' h_2 => refine Spells.bind (spells_some (List.nil_append s)) ?_
      -- What is behind the name is read alike with arguments and without.
      all_goals
        intro pieces behind hread
        dsimp only
        split
        · refine spells_identifier fun name c tail hsplit _ => (hsuf _ _ _).before ?_
          rw [← hread, hsplit]
          simp [Piece.spelling]
        · refine spells_some ?_
          rw [← hread]
          simp [Piece.spelling]
        · exact spells_none
    · unfold arguments
      split
      · exact spells_none
      · exact spells_some rfl
      · next rest hfuel =>
        cases hfuel
        exact (harg _).before rfl
      · next rest hfuel =>
        cases hfuel
        refine (href _).bind fun pieces behind hread => (harg _).before ?_
        rw [← hread]
        simp [Piece.spelling]
      · next rest hfuel =>
        cases hfuel
        refine (href _).bind fun pieces behind hread => (harg _).before ?_
        rw [← hread]
        simp [Piece.spelling]
      · next hfuel _ _ _ _ =>
        cases hfuel
        exact (href _).bind fun pieces behind hread => (harg _).before hread

theorem spells_referenceType (s : List Char) : Spells s (referenceType s) := (spells_types _).1 s

theorem spells_javaType (s : List Char) : Spells s (javaType s) := by
  unfold javaType
  split
  · split
    · exact spells_some rfl
    · exact spells_referenceType _
  · exact spells_none

theorem spells_bounds (fuel : Nat) (s : List Char) : Spells s (bounds fuel s) := by
  induction fuel generalizing s with
  | zero => exact spells_some rfl
  | succ fuel ih =>
    unfold bounds
    split
    · next c rest hfuel =>
      cases hfuel
      dsimp only
      split
      case' isTrue => refine (spells_referenceType _).bind ?_
      case' isFalse => refine Spells.bind (spells_some (List.nil_append _)) ?_
      all_goals
        intro pieces behind hread
        refine (ih _).before ?_
        rw [← hread]
        simp [Piece.spelling]
    · exact spells_none
    · exact spells_some rfl

theorem spells_parameters (fuel : Nat) (s : List Char) : Spells s (parameters fuel s) := by
  induction fuel generalizing s with
  | zero => exact spells_none
  | succ fuel ih =>
    unfold parameters
    split
    · exact spells_some rfl
    · next c rest _ hfuel =>
      cases hfuel
      refine spells_identifier fun name c' tail hsplit _ => ?_
      refine (spells_bounds _ _).bind fun pieces behind hread => (ih _).before ?_
      rw [hsplit, ← hread]
      simp [Piece.spelling]
    · exact spells_none

theorem spells_argumentTypes (fuel : Nat) (s : List Char) : Spells s (argumentTypes fuel s) := by
  induction fuel generalizing s with
  | zero => exact spells_none
  | succ fuel ih =>
    unfold argumentTypes
    split
    · exact spells_none
    · exact spells_some rfl
    · next hfuel _ =>
      cases hfuel
      exact (spells_javaType _).bind fun pieces behind hread => (ih _).before hread

theorem spells_exceptions (fuel : Nat) (s : List Char) : SpellsAll s (exceptions fuel s) := by
  induction fuel generalizing s with
  | zero =>
    cases s
    · exact spellsAll_some rfl
    · rw [exceptions]
      · exact spellsAll_none
      · simp
      · simp
  | succ fuel ih =>
    unfold exceptions
    split
    · exact spellsAll_some rfl
    · next hfuel =>
      cases hfuel
      refine (spells_referenceType _).bindAll fun pieces behind hread => ?_
      refine (ih _).bind fun more hmore => spellsAll_some ?_
      rw [← hread, ← hmore]
      simp [Piece.spelling]
    · exact spellsAll_none

theorem spells_superTypes (fuel : Nat) (s : List Char) : SpellsAll s (superTypes fuel s) := by
  induction fuel generalizing s with
  | zero =>
    cases s
    · exact spellsAll_some rfl
    · exact spellsAll_none
  | succ fuel ih =>
    unfold superTypes
    split
    · exact spellsAll_some rfl
    · next hfuel _ =>
      cases hfuel
      refine (spells_referenceType _).bindAll fun pieces behind hread => ?_
      refine (ih _).bind fun more hmore => spellsAll_some ?_
      rw [spelling_append, hmore, hread]
    · next h _ => cases h

theorem spells_body (s : List Char) : SpellsAll s (body s) := by
  unfold body
  split
  · refine (spells_argumentTypes _ _).bindAll fun arguments behind hread => ?_
    refine (spells_javaType _).bindAll fun returned last hlast => ?_
    refine (spells_exceptions _ _).bind fun thrown hthrown => spellsAll_some ?_
    rw [← hread, ← hlast, ← hthrown]
    simp [Piece.spelling]
  · exact spellsAll_none
  · exact spells_superTypes _ _

/-- The pieces of a signature spell it. -/
theorem spells_pieces? (s : List Char) : SpellsAll s (pieces? s) := by
  unfold pieces?
  split
  · refine (spells_parameters _ _).bindAll fun parameters behind hread => ?_
    refine (spells_body _).bind fun more hmore => spellsAll_some ?_
    rw [← hread, ← hmore]
    simp [Piece.spelling]
  · exact spells_body _

end JarRemap.Signature
