import JarRemap.Proofs.Signature.Types
import Mathlib.Data.List.Basic

/-!
# A printed signature is renamed

The text of a signature is read, from its type parameters to the last type, and so it is renamed to
the print of the same signature under the new names. The new name of a suffix is told by a rule of
its own, `SuffixRule`.
-/

namespace JarRemap.Signature

/-- A reference type is read off the text that it begins. -/
theorem ReferenceType.reads_referenceType (type : ReferenceType) (rest : List Char) :
    Reads (referenceType (type.print plain ++ rest)) (fun f => type.print f) rest := by
  apply type.reads
  rw [List.length_append]
  omega

theorem AnyType.reads_javaType (type : AnyType) (rest : List Char) :
    Reads (javaType (type.print plain ++ rest)) (fun f => type.print f) rest := by
  cases type with
  | primitive p =>
    simp only [AnyType.print, List.cons_append, List.nil_append, javaType, isPrimitive_letter,
      if_true]
    exact reads_some fun f => rfl
  | reference type =>
    have htype := type.reads_referenceType rest
    obtain ⟨c, tail, hc, hprint⟩ := type.print_eq_cons plain
    simp only [AnyType.print, hprint, List.cons_append, javaType,
      not_isPrimitive_of_beginsReference hc] at htype ⊢
    exact htype

theorem AnyType.length_print_pos (f : ClassMap) (type : AnyType) : 0 < (type.print f).length := by
  cases type with
  | primitive p => exact Nat.succ_pos _
  | reference type => exact type.length_print_pos f

/-- An argument type is not taken for the end of the arguments. -/
theorem argumentTypes_type (type : AnyType) (fuel : Nat) (rest : List Char) :
    argumentTypes (fuel + 1) (type.print plain ++ rest) =
      (javaType (type.print plain ++ rest)).bind fun r =>
        before r.1 (argumentTypes fuel r.2) := by
  cases type with
  | primitive p => cases p <;> rfl
  | reference type =>
    obtain ⟨c, tail, hc, hprint⟩ := type.print_eq_cons plain
    rw [AnyType.print, hprint]
    rcases hc with rfl | rfl | rfl <;> rfl

theorem reads_argumentTypes (types : List AnyType) (fuel : Nat) (rest : List Char)
    (hfuel : (types.flatMap (AnyType.print plain)).length < fuel) :
    Reads (argumentTypes fuel (types.flatMap (AnyType.print plain) ++ ')' :: rest))
      (fun f => types.flatMap (AnyType.print f) ++ [')']) rest := by
  induction types generalizing fuel with
  | nil =>
    cases fuel with
    | zero => exact absurd hfuel (Nat.not_lt_zero _)
    | succ fuel => exact reads_some fun f => rfl
  | cons type types ih =>
    cases fuel with
    | zero => exact absurd hfuel (Nat.not_lt_zero _)
    | succ fuel =>
      rw [List.flatMap_cons, List.length_append] at hfuel
      have hpos := type.length_print_pos plain
      have htypes := ih fuel (by omega)
      have htype := type.reads_javaType (types.flatMap (AnyType.print plain) ++ ')' :: rest)
      rw [List.flatMap_cons, List.append_assoc, argumentTypes_type]
      exact htype.bind fun pieces hpieces => htypes.before fun f => by simp [hpieces]

/-- A reading that takes all of a text succeeds, and what is read prints as `text`. -/
def ReadsAll (reading : Option (List Piece)) (text : ClassMap → List Char) : Prop :=
  ∃ pieces, reading = some pieces ∧ ∀ f, printed f pieces = text f

theorem Reads.bindAll {reading : Reading} {first text : ClassMap → List Char} {middle : List Char}
    {next : List Piece × List Char → Option (List Piece)} (h : Reads reading first middle)
    (hnext : ∀ pieces, (∀ f, printed f pieces = first f) → ReadsAll (next (pieces, middle)) text) :
    ReadsAll (reading >>= next) text := by
  obtain ⟨pieces, rfl, hpieces⟩ := h
  exact hnext pieces hpieces

theorem ReadsAll.bind {reading : Option (List Piece)} {first text : ClassMap → List Char}
    {next : List Piece → Option (List Piece)} (h : ReadsAll reading first)
    (hnext : ∀ pieces, (∀ f, printed f pieces = first f) → ReadsAll (next pieces) text) :
    ReadsAll (reading >>= next) text := by
  obtain ⟨pieces, rfl, hpieces⟩ := h
  exact hnext pieces hpieces

theorem readsAll_some {pieces : List Piece} {text : ClassMap → List Char}
    (htext : ∀ f, printed f pieces = text f) : ReadsAll (some pieces) text := ⟨pieces, rfl, htext⟩

theorem readsAll_exceptions (types : List ReferenceType) (fuel : Nat)
    (hfuel : (types.flatMap (printMarked plain '^')).length ≤ fuel) :
    ReadsAll (exceptions fuel (types.flatMap (printMarked plain '^')))
      (fun f => types.flatMap (printMarked f '^')) := by
  induction types generalizing fuel with
  | nil => cases fuel <;> exact readsAll_some fun f => rfl
  | cons type types ih =>
    cases fuel with
    | zero => exact absurd hfuel (Nat.not_succ_le_zero _)
    | succ fuel =>
      rw [List.flatMap_cons, List.length_append] at hfuel
      have htypes := ih fuel (by simp only [printMarked, List.length_cons] at hfuel; omega)
      have htype := type.reads_referenceType (types.flatMap (printMarked plain '^'))
      exact htype.bindAll fun pieces hpieces => htypes.bind fun more hmore =>
        readsAll_some fun f => by simp [hpieces, hmore, printMarked]

theorem superTypes_cons (fuel : Nat) (type : ReferenceType) (rest : List Char) :
    superTypes (fuel + 1) (type.print plain ++ rest) =
      (referenceType (type.print plain ++ rest)).bind fun r =>
        (superTypes fuel r.2).bind fun more => some (r.1 ++ more) := by
  obtain ⟨c, tail, -, hprint⟩ := type.print_eq_cons plain
  rw [hprint]
  rfl

theorem readsAll_superTypes (types : List ReferenceType) (fuel : Nat)
    (hfuel : (types.flatMap (ReferenceType.print plain)).length ≤ fuel) :
    ReadsAll (superTypes fuel (types.flatMap (ReferenceType.print plain)))
      (fun f => types.flatMap (ReferenceType.print f)) := by
  induction types generalizing fuel with
  | nil => cases fuel <;> exact readsAll_some fun f => rfl
  | cons type types ih =>
    rw [List.flatMap_cons, List.length_append] at hfuel
    have hpos := type.length_print_pos plain
    cases fuel with
    | zero => omega
    | succ fuel =>
      have htypes := ih fuel (by omega)
      have htype := type.reads_referenceType (types.flatMap (ReferenceType.print plain))
      rw [List.flatMap_cons, superTypes_cons]
      exact htype.bindAll fun pieces hpieces => htypes.bind fun more hmore =>
        readsAll_some fun f => by simp [hpieces, hmore]

theorem reads_returned (type : Option AnyType) (rest : List Char) :
    Reads (javaType (printReturned plain type ++ rest)) (fun f => printReturned f type) rest := by
  cases type with
  | none => exact reads_some fun f => rfl
  | some type => exact type.reads_javaType rest

/-- A bound that begins as a type does is read as one. -/
theorem bounds_type (type : ReferenceType) (fuel : Nat) (rest : List Char) :
    bounds (fuel + 1) (':' :: (type.print plain ++ rest)) =
      (referenceType (type.print plain ++ rest)).bind fun r =>
        before (.text [':'] :: r.1) (bounds fuel r.2) := by
  obtain ⟨c, tail, hc, hprint⟩ := type.print_eq_cons plain
  rw [hprint]
  rcases hc with rfl | rfl | rfl <;> rfl

theorem readsAll_body (b : Body) : ReadsAll (body (b.print plain)) (fun f => b.print f) := by
  cases b with
  | types first more =>
    have htypes := readsAll_superTypes (first :: more) _ (Nat.le_refl _)
    obtain ⟨c, tail, hc, hprint⟩ := first.print_eq_cons plain
    simp only [List.flatMap_cons, hprint] at htypes
    simp only [Body.print, hprint]
    rcases hc with rfl | rfl | rfl
    all_goals exact htypes
  | method arguments returned thrown =>
    have hthrown := readsAll_exceptions thrown _ (Nat.le_refl _)
    have hreturned := reads_returned returned (thrown.flatMap (printMarked plain '^'))
    have harguments := reads_argumentTypes arguments
      ((arguments.flatMap (AnyType.print plain) ++ ')' ::
        (printReturned plain returned ++ thrown.flatMap (printMarked plain '^'))).length + 1)
      (printReturned plain returned ++ thrown.flatMap (printMarked plain '^'))
      (by simp only [List.length_append]; omega)
    exact harguments.bindAll fun args hargs => hreturned.bindAll fun ret hret =>
      hthrown.bind fun exns hexns => readsAll_some fun f => by
        simp [Body.print, hargs, hret, hexns]

/-- A colon stands before a bound only. -/
theorem reads_interfaceBounds (types : List ReferenceType) (fuel : Nat) (rest : List Char)
    (hrest : ∀ c ∈ rest.head?, c ≠ ':')
    (hfuel : (types.flatMap (printMarked plain ':')).length ≤ fuel) :
    Reads (bounds fuel (types.flatMap (printMarked plain ':') ++ rest))
      (fun f => types.flatMap (printMarked f ':')) rest := by
  induction types generalizing fuel with
  | nil =>
    rw [List.flatMap_nil, List.nil_append, bounds]
    · exact reads_some fun f => rfl
    · rintro _ c tail - rfl
      exact hrest ':' rfl rfl
    · rintro _ - rfl
      exact hrest ':' rfl rfl
  | cons type types ih =>
    cases fuel with
    | zero => exact absurd hfuel (Nat.not_succ_le_zero _)
    | succ fuel =>
      rw [List.flatMap_cons, List.length_append] at hfuel
      have htypes := ih fuel (by simp only [printMarked, List.length_cons] at hfuel; omega)
      have htype := type.reads_referenceType (types.flatMap (printMarked plain ':') ++ rest)
      simp only [List.flatMap_cons, printMarked, List.cons_append, List.append_assoc]
      rw [bounds_type]
      exact htype.bind fun pieces hpieces => htypes.before fun f => by simp [hpieces]

/-- The bounds of a type parameter. An empty class bound ends at the colon of an interface bound. -/
theorem TypeParameter.reads_bounds (p : TypeParameter) (fuel : Nat) (rest : List Char)
    (hrest : ∀ c ∈ rest.head?, c ≠ ':') (hfuel : (p.printBounds plain).length ≤ fuel) :
    Reads (bounds fuel (p.printBounds plain ++ rest)) (fun f => p.printBounds f) rest := by
  obtain ⟨name, classBound, interfaceBounds, hbounded⟩ := p
  cases classBound with
  | some type => exact reads_interfaceBounds (type :: interfaceBounds) fuel rest hrest hfuel
  | none =>
    cases interfaceBounds with
    | nil => exact absurd rfl (hbounded rfl)
    | cons type types =>
      cases fuel with
      | zero => exact absurd hfuel (Nat.not_succ_le_zero _)
      | succ fuel =>
        have htypes := reads_interfaceBounds (type :: types) fuel rest hrest
          (Nat.le_of_succ_le_succ hfuel)
        exact htypes.before fun f => rfl

/-- Behind a type parameter stands another one, or the end. -/
theorem head_parameters (ps : List TypeParameter) (rest : List Char) :
    ∀ c ∈ (ps.flatMap (TypeParameter.print plain) ++ '>' :: rest).head?, c ≠ ':' := by
  cases ps with
  | nil => 
    rintro _ ⟨⟩
    decide
  | cons p ps =>
    intro c hc
    obtain ⟨first, name, hname⟩ := List.exists_cons_of_ne_nil p.name.nonempty
    simp only [List.flatMap_cons, TypeParameter.print, hname, List.cons_append, List.head?_cons,
      Option.mem_def, Option.some.injEq] at hc
    subst hc
    exact p.name.ne_of_mem (hname ▸ List.mem_cons_self) (by decide)

/-- A type parameter is read by its name up to a colon, then by its bounds. -/
theorem parameters_cons (p : TypeParameter) (fuel : Nat) (rest : List Char) :
    parameters (fuel + 1) (p.print plain ++ rest) =
      (bounds ((p.printBounds plain ++ rest).length + 1) (p.printBounds plain ++ rest)).bind fun r =>
        before (.text p.name.chars :: r.1) (parameters fuel r.2) := by
  have hread : identifier? (· = ':') (p.name.chars ++ (p.printBounds plain ++ rest)) =
      some (p.name.chars, p.printBounds plain ++ rest) :=
    identifier?_append p.name.nonempty
      (fun c hc => decide_eq_false (p.name.ne_of_mem hc (by decide))) ⟨':', rfl, rfl⟩
  obtain ⟨first, name, hname⟩ := List.exists_cons_of_ne_nil p.name.nonempty
  have hfirst : first ≠ '>' := p.name.ne_of_mem (hname ▸ List.mem_cons_self) (by decide)
  rw [hname] at hread
  rw [TypeParameter.print, List.append_assoc, hname, List.cons_append, parameters]
  · rw [← List.cons_append, hread]
    rfl
  · exact fun h => hfirst h

theorem reads_parameters (ps : List TypeParameter) (fuel : Nat) (rest : List Char)
    (hfuel : (ps.flatMap (TypeParameter.print plain)).length < fuel) :
    Reads (parameters fuel (ps.flatMap (TypeParameter.print plain) ++ '>' :: rest))
      (fun f => ps.flatMap (TypeParameter.print f) ++ ['>']) rest := by
  induction ps generalizing fuel with
  | nil =>
    cases fuel with
    | zero => exact absurd hfuel (Nat.not_lt_zero _)
    | succ fuel => exact reads_some fun f => rfl
  | cons p ps ih =>
    cases fuel with
    | zero => exact absurd hfuel (Nat.not_lt_zero _)
    | succ fuel =>
      rw [List.flatMap_cons, List.length_append] at hfuel
      have hps := ih fuel (by
        simp only [TypeParameter.print, TypeParameter.printBounds, TypeParameter.printClassBound,
          List.length_append, List.length_cons] at hfuel
        omega)
      rw [List.flatMap_cons, List.append_assoc, parameters_cons]
      refine (p.reads_bounds _ _ (head_parameters ps rest) ?_).bind fun pieces hpieces => ?_
      · rw [List.length_append]
        omega
      · exact hps.before fun f => by simp [hpieces, TypeParameter.print]

/-- What follows the type parameters is not taken for some. -/
theorem pieces?_body (b : Body) : pieces? (b.print plain) = body (b.print plain) := by
  cases b with
  | types first more =>
    obtain ⟨c, tail, hc, hprint⟩ := first.print_eq_cons plain
    rw [Body.print, hprint]
    rcases hc with rfl | rfl | rfl <;> rfl
  | method arguments returned thrown => rfl

/-- The text of a signature is read, and what is read prints it under any names. -/
theorem readsAll_pieces? (ps : List TypeParameter) (b : Body) :
    ReadsAll (pieces? (printParameters plain ps ++ b.print plain))
      (fun f => printParameters f ps ++ b.print f) := by
  have hbody := readsAll_body b
  cases ps with
  | nil =>
    rw [printParameters, List.nil_append, pieces?_body]
    exact hbody
  | cons p ps =>
    have hparameters := reads_parameters (p :: ps)
      (((p :: ps).flatMap (TypeParameter.print plain) ++ '>' :: b.print plain).length + 1)
      (b.print plain) (by rw [List.length_append]; omega)
    simp only [printParameters, List.cons_append, List.append_assoc, List.nil_append, pieces?]
    exact hparameters.bindAll fun pieces hpieces => hbody.bind fun more hmore =>
      readsAll_some fun f => by simp [hpieces, hmore]

/-- A printed signature is renamed to the same signature under the new names. -/
theorem rename?_print (f : ClassMap) (g : Generic) :
    rename? f (g.print plain) = some (g.print f) := by
  obtain ⟨pieces, hread, hprinted⟩ := readsAll_pieces? g.parameters g.body
  rw [rename?, Generic.print, String.toList_ofList, hread]
  exact congrArg (fun s => some (String.ofList s)) (hprinted f)

/-- The part of a text behind the last character that satisfies `p`. -/
def IsLastPart (p : Char → Bool) (s part : List Char) : Prop :=
  (∀ c ∈ part, p c = false) ∧ ∃ before, s = before ++ part ∧ ∀ c ∈ before.getLast?, p c = true

theorem isLastPart_behindLast (p : Char → Bool) (s : List Char) :
    IsLastPart p s (Text.behindLast p s) := by
  refine ⟨fun c hc => ?_, (s.reverse.dropWhile fun c => !p c).reverse, ?_, fun c hc => ?_⟩
  · rw [Text.behindLast, List.mem_reverse] at hc
    simpa using List.all_eq_true.1 List.all_takeWhile c hc
  · rw [Text.behindLast, ← List.reverse_append, List.takeWhile_append_dropWhile,
      List.reverse_reverse]
  · rw [List.getLast?_reverse] at hc
    have hstop := List.head?_dropWhile_not (fun c => !p c) s.reverse
    rw [Option.mem_def.1 hc] at hstop
    simpa using hstop

theorem IsLastPart.eq_behindLast {p : Char → Bool} {s part : List Char} (h : IsLastPart p s part) :
    part = Text.behindLast p s := by
  obtain ⟨hpart, before, rfl, hbefore⟩ := h
  have hgo : ∀ c ∈ part.reverse, (!p c) = true := fun c hc => by
    rw [hpart c (List.mem_reverse.1 hc)]
    rfl
  have hstop : before.reverse.takeWhile (fun c => !p c) = [] := by
    cases hreverse : before.reverse with
    | nil => rfl
    | cons c tail =>
      have hc : p c = true := hbefore c (by rw [← List.head?_reverse, hreverse]; rfl)
      exact List.takeWhile_cons_of_neg (by simp [hc])
  rw [Text.behindLast, List.reverse_append, List.takeWhile_append_of_pos hgo, hstop,
    List.append_nil, List.reverse_reverse]

/-- How a suffix of a class type gets its new name. -/
inductive SuffixRule (f : ClassMap) (outer : Written) (name : String) : String → Prop where
  /-- The new name of the whole class begins with the new name of the class before. -/
  | behindOuter (rest : String)
      (h : f (outer.old ++ "$" ++ name) = some (outer.new ++ "$" ++ rest)) :
      SuffixRule f outer name rest
  /-- It begins otherwise. -/
  | behindLast (image part : String) (h : f (outer.old ++ "$" ++ name) = some image)
      (hother : ∀ rest, image ≠ outer.new ++ "$" ++ rest)
      (hpart : IsLastPart (fun c => c = '$' || c = '/') image.toList part.toList) :
      SuffixRule f outer name part
  /-- The class has no new name. -/
  | kept (h : f (outer.old ++ "$" ++ name) = none) : SuffixRule f outer name name

/-- The new name of a suffix is the one that the rule gives it. -/
theorem suffixRule_iff (f : ClassMap) (outer : Written) (name renamed : String) :
    SuffixRule f outer name renamed ↔ renamed = suffixImage f outer name := by
  have hstrip : ∀ image rest : String,
      Text.stripStart? (outer.new.toList ++ ['$']) image.toList = some rest.toList ↔
        image = outer.new ++ "$" ++ rest := by
    intro image rest
    rw [Text.stripStart?, List.isPrefixOf?_eq_some_iff_append_eq, ← String.toList_inj]
    simp [eq_comm]
  constructor
  · intro h
    cases h with
    | behindOuter _ himage =>
      have hread := (hstrip _ renamed).2 rfl
      simp only [suffixImage, innerImage, himage, hread, String.ofList_toList]
    | behindLast image _ himage hother hpart =>
      have hread : Text.stripStart? (outer.new.toList ++ ['$']) image.toList = none := by
        apply Option.eq_none_iff_forall_ne_some.2
        intro rest hrest
        exact hother (String.ofList rest) ((hstrip _ _).1 (by rw [hrest, String.toList_ofList]))
      rw [← String.toList_inj, hpart.eq_behindLast]
      simp [suffixImage, innerImage, himage, hread]
    | kept himage => simp [suffixImage, innerImage, himage]
  · rintro rfl
    unfold suffixImage innerImage
    split
    · next himage => exact .kept himage
    · next image himage =>
      split
      · next rest hread =>
        refine .behindOuter _ (himage.trans (congrArg some ?_))
        exact (hstrip _ _).1 (by rw [hread, String.toList_ofList])
      · next hread =>
        refine .behindLast image _ himage (fun rest hrest => ?_) ?_
        · exact Option.some_ne_none _ (((hstrip _ _).2 hrest).symm.trans hread)
        · rw [String.toList_ofList]
          exact isLastPart_behindLast _ _

/-- Whether a text is a signature does not hang on the new names. -/
theorem isSome_rename? (f g : ClassMap) (signature : String) :
    (rename? f signature).isSome = (rename? g signature).isSome := by
  rw [rename?, rename?, Option.isSome_map, Option.isSome_map]

section Unchanging

variable {f : ClassMap} (hf : ∀ name, f.image name = name)

include hf

theorem suffixImage_of_image (name suffix : String) : suffixImage f ⟨name, name⟩ suffix = suffix := by
  have hsuffix : SuffixRule f ⟨name, name⟩ suffix suffix := by
    cases himage : f (name ++ "$" ++ suffix) with
    | none => exact .kept himage
    | some image =>
      have hsame := hf (name ++ "$" ++ suffix)
      rw [ClassMap.image, himage] at hsame
      exact .behindOuter suffix (himage.trans (congrArg some hsame))
  exact ((suffixRule_iff _ _ _ _).1 hsuffix).symm

theorem foldl_child_of_image (suffixes : List String) (name : String) :
    ∃ last, suffixes.foldl (Written.child f) ⟨name, name⟩ = ⟨last, last⟩ := by
  induction suffixes generalizing name with
  | nil => exact ⟨name, rfl⟩
  | cons suffix suffixes ih =>
    have hchild : Written.child f ⟨name, name⟩ suffix =
        ⟨name ++ "$" ++ suffix, name ++ "$" ++ suffixImage f ⟨name, name⟩ suffix⟩ := rfl
    rw [List.foldl_cons, hchild, suffixImage_of_image hf]
    exact ih _

/-- A piece is printed as it was read if no class has a name other than its own. -/
theorem render_of_image (piece : Piece) : piece.render f = piece.spelling := by
  cases piece with
  | text s => rfl
  | outer name => exact congrArg String.toList (hf name)
  | inner first before name =>
    obtain ⟨last, hlast⟩ := foldl_child_of_image hf before first
    rw [Piece.render, hf first, hlast, suffixImage_of_image hf]
    rfl

/-- A map that changes nothing gives back what it accepts. -/
theorem eq_of_rename?_of_image {signature renamed : String} (h : rename? f signature = some renamed) :
    renamed = signature := by
  obtain ⟨pieces, hpieces, rfl⟩ := Option.map_eq_some_iff.1 h
  rw [funext (render_of_image hf)]
  exact (congrArg String.ofList (spells_pieces? _ pieces hpieces)).trans String.ofList_toList

end Unchanging

/-- Renaming a signature replaces its class names and nothing else: whether a text is a signature
does not hang on the map, the print of every signature becomes its print under the new names, with
suffixes by their rule, and a map that changes nothing gives back what it accepts. -/
theorem rename?_renames_classes (f : ClassMap) :
    (∀ (g : ClassMap) (signature : String),
        (rename? f signature).isSome = (rename? g signature).isSome) ∧
      (∀ g : Generic, rename? f (g.print plain) = some (g.print f)) ∧
      (∀ outer name renamed,
        SuffixRule f outer name renamed ↔ renamed = suffixImage f outer name) ∧
      ((∀ name, f.image name = name) →
        (∀ signature renamed, rename? f signature = some renamed → renamed = signature) ∧
          ∀ g : Generic, rename? f (g.print plain) = some (g.print plain)) := by
  refine ⟨isSome_rename? f, rename?_print f, suffixRule_iff f, fun hf => ?_⟩
  have hsame : ∀ signature renamed, rename? f signature = some renamed → renamed = signature :=
    fun _ _ h => eq_of_rename?_of_image hf h
  refine ⟨hsame, fun g => ?_⟩
  have hprint := rename?_print f g
  rw [hprint, hsame _ _ hprint]

/-- A class `T extends a/B`, of the type `a/B<? extends T, ?>.C.D`. -/
def nested : Generic :=
  let letter (c : Char) (h : isMark c = false) : Identifier :=
    ⟨[c], List.cons_ne_nil c [], fun _ hc => List.mem_singleton.1 hc ▸ h⟩
  let parameter := letter 'T' rfl
  let path : ClassPath := ⟨[letter 'a' rfl], letter 'B' rfl⟩
  ⟨[⟨parameter, some (.classType path .nil .nil), [], by simp⟩],
    .types
      (.classType path (.type (some .extends) (.typeVariable parameter) (.any .nil))
        (.cons (letter 'C' rfl) .nil (.cons (letter 'D' rfl) .nil .nil)))
      []⟩

/-- The suffix `C` follows the new name of `a/B`, and `D` has a new name that does not. -/
theorem rename?_nested :
    let f : ClassMap := fun name =>
      if name = "a/B" then some "x/Y"
      else if name = "a/B$C" then some "x/Y$Z" else if name = "a/B$C$D" then some "o/P$E" else none
    nested.print plain = "<T:La/B;>La/B<+TT;*>.C.D;" ∧
      rename? f (nested.print plain) = some (nested.print f) ∧
      nested.print f = "<T:Lx/Y;>Lx/Y<+TT;*>.Z.E;" ∧
      rename? plain (nested.print plain) = some (nested.print plain) := by
  intro f
  have hprint := (rename?_renames_classes f).2.1 nested
  have hsame := ((rename?_renames_classes plain).2.2.2 fun _ => rfl).2 nested
  exact ⟨by cbv, hprint, by cbv, hsame⟩

end JarRemap.Signature
