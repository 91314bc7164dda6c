import JarRemap.Proofs.ClassFile.Interning
import JarRemap.Proofs.ClassFile.RoundTrip
import JarRemap.Renaming.Attributes
import Mathlib.Data.List.Basic

/-!
# Attributes keep their lengths

Copying a table takes bytes off the front and writes bytes behind those it wrote. What is taken and
what is written have the same length for every part whose contents are renamed, and names and
lengths of attributes are written as they were taken, so a renamed table is a table. The pool is
only extended on the way.
-/

namespace JarRemap.Attributes

variable {α β : Type}

/-- A part of a table that was copied: what was taken, and what was written for it. -/
structure Step (s s' : State) (taken written : List UInt8) : Prop where
  sound : s'.pool.Sound
  grown : s.pool.Extends s'.pool
  rest : s.cursor.rest = taken ++ s'.cursor.rest
  offset : s'.cursor.offset = s.cursor.offset + taken.length
  copied : s'.copied = written.reverse ++ s.copied

/-- What is true of the bytes that are taken, those that are written, and the value that is given. -/
def Copies (c : Copy α) (P : List UInt8 → List UInt8 → α → Prop) : Prop :=
  ∀ s a s', s.pool.Sound → c s = (.ok a, s') →
    ∃ taken written, Step s s' taken written ∧ P taken written a

/-- So many more bytes are taken than written, and what is true of the value that is given. -/
def Lags (c : Copy α) (lag : Int) (P : α → Prop) : Prop :=
  Copies c fun taken written a => (taken.length : Int) = written.length + lag ∧ P a

/-- As many bytes are written as are taken. -/
def Balanced (c : Copy α) : Prop := Lags c 0 fun _ => True

namespace Step

variable {a b c : State} {taken written taken' written' : List UInt8}

theorem refl (h : a.pool.Sound) : Step a a [] [] := ⟨h, .refl _, rfl, rfl, rfl⟩

theorem trans (hab : Step a b taken written) (hbc : Step b c taken' written') :
    Step a c (taken ++ taken') (written ++ written') := by
  refine ⟨hbc.sound, hab.grown.trans hbc.grown, ?_, ?_, ?_⟩
  · rw [hab.rest, hbc.rest, List.append_assoc]
  · rw [hbc.offset, hab.offset, List.length_append, Nat.add_assoc]
  · rw [hbc.copied, hab.copied, List.reverse_append, List.append_assoc]

end Step

theorem Lags.bind {c : Copy α} {f : α → Copy β} {k l : Int} {P : α → Prop} {Q : β → Prop}
    (hc : Lags c k P) (hf : ∀ a, P a → Lags (f a) l Q) : Lags (c >>= f) (k + l) Q := by
  intro s b s' hsound hrun
  obtain ⟨a, next, hfirst, hrun⟩ := bind_eq_ok hrun
  obtain ⟨taken, written, hstep, hlag, ha⟩ := hc s a next hsound hfirst
  obtain ⟨taken', written', hstep', hlag', hb⟩ := hf a ha next b s' hstep.sound hrun
  refine ⟨_, _, hstep.trans hstep', ?_, hb⟩
  simp only [List.length_append, Int.natCast_add]
  omega

/-- Two parts that are copied one after the other, whose lags cancel out. -/
theorem Lags.balanced {c : Copy α} {f : α → Copy β} {k l : Int} {P : α → Prop} {Q : β → Prop}
    (hc : Lags c k P) (hf : ∀ a, P a → Lags (f a) l Q) (hsum : k + l = 0) :
    Balanced (c >>= f) := by
  intro s b s' hsound hrun
  obtain ⟨taken, written, hstep, hlag, -⟩ := hc.bind hf s b s' hsound hrun
  exact ⟨taken, written, hstep, by omega, trivial⟩

theorem Balanced.bind {c : Copy α} {f : α → Copy β} {l : Int} {Q : β → Prop} (hc : Balanced c)
    (hf : ∀ a, Lags (f a) l Q) : Lags (c >>= f) l Q := by
  have hboth := Lags.bind hc fun a _ => hf a
  rwa [Int.zero_add] at hboth

theorem lags_pure {a : α} {P : α → Prop} (h : P a) : Lags (pure a) 0 P := by
  rintro s b s' hsound hrun
  cases hrun
  exact ⟨[], [], .refl hsound, by simp, h⟩

theorem balanced_pure (a : α) : Balanced (pure a) := lags_pure trivial

theorem lags_throw {k : Int} {P : α → Prop} (e : ClassFault) : Lags (throw e : Copy α) k P := by
  intro s a s' _ hrun
  cases hrun

theorem balanced_get : Balanced (get : Copy State) := by
  intro s a s' hsound hrun
  cases hrun
  exact ⟨[], [], .refl hsound, by simp, trivial⟩

theorem balanced_constants : Balanced constants :=
  balanced_get.bind fun _ => balanced_pure _

/-- Taking bytes gives the bytes that are taken. -/
theorem copies_take (count : Nat) :
    Copies (take count) fun taken written bytes =>
      taken = bytes ∧ written = [] ∧ bytes.length = count := by
  intro s bytes s' hsound hrun
  unfold take at hrun
  cases htake : s.cursor.take? count with
  | none =>
    rw [htake] at hrun
    cases hrun
  | some found =>
    rw [htake] at hrun
    cases hrun
    unfold Cursor.take? at htake
    dsimp only at htake
    split at htake
    · next hlength =>
      cases htake
      refine ⟨_, [], ⟨hsound, .refl _, ?_, ?_, rfl⟩, rfl, rfl, hlength⟩
      · exact (List.take_append_drop count s.cursor.rest).symm
      · rw [hlength]
    · cases htake

theorem copies_emit (bytes : List UInt8) :
    Copies (emit bytes) fun taken written _ => taken = [] ∧ written = bytes := by
  intro s a s' hsound hrun
  cases hrun
  exact ⟨[], bytes, ⟨hsound, .refl _, rfl, rfl, rfl⟩, rfl, rfl⟩

theorem lags_take (count : Nat) : Lags (take count) count fun bytes => bytes.length = count := by
  intro s bytes s' hsound hrun
  obtain ⟨taken, written, hstep, rfl, rfl, hlength⟩ := copies_take count s bytes s' hsound hrun
  exact ⟨taken, [], hstep, by simp [hlength], hlength⟩

theorem lags_emit (bytes : List UInt8) : Lags (emit bytes) (-bytes.length) fun _ => True := by
  intro s a s' hsound hrun
  obtain ⟨taken, written, hstep, rfl, hwritten⟩ := copies_emit bytes s a s' hsound hrun
  exact ⟨[], written, hstep, by simp [hwritten], trivial⟩

theorem balanced_copy (count : Nat) : Balanced (copy count) := by
  refine (lags_take count).balanced (l := -count) (Q := fun _ => True) ?_ (by omega)
  intro bytes hlength
  rw [← hlength]
  exact lags_emit bytes

/-- A number is written as it is taken. -/
theorem copies_number (count : Nat) :
    Copies (number count) fun taken written n =>
      written = taken ∧ taken.length = count ∧ n = natOfBytes taken := by
  intro s n s' hsound hrun
  obtain ⟨bytes, next, hfirst, hrun⟩ := bind_eq_ok hrun
  obtain ⟨taken, written, hstep, rfl, rfl, hlength⟩ := copies_take count s bytes next hsound hfirst
  obtain ⟨⟨⟩, last, hsecond, hrun⟩ := bind_eq_ok hrun
  obtain ⟨taken', written', hstep', rfl, hwritten⟩ :=
    copies_emit taken next _ last hstep.sound hsecond
  cases hrun
  rw [hwritten] at hstep'
  have hboth := hstep.trans hstep'
  rw [List.append_nil, List.nil_append] at hboth
  exact ⟨taken, taken, hboth, rfl, hlength, rfl⟩

theorem balanced_number (count : Nat) : Balanced (number count) := by
  intro s n s' hsound hrun
  obtain ⟨taken, written, hstep, rfl, -, -⟩ := copies_number count s n s' hsound hrun
  exact ⟨written, written, hstep, by simp, trivial⟩

theorem lags_emitIndex (index : UInt16) : Lags (emitIndex index) (-2) fun _ => True := by
  have hlags := lags_emit (bytesOfNat 2 index.toNat)
  rwa [length_bytesOfNat] at hlags

theorem length_pairs (bytes : List UInt8) : (indexes.pairs bytes).length = bytes.length / 2 := by
  induction bytes using indexes.pairs.induct with
  | case1 a b rest ih =>
    rw [indexes.pairs, List.length_cons, ih, List.length_cons, List.length_cons]
    omega
  | case2 bytes hshort =>
    rw [indexes.pairs]
    · have hlength : bytes.length < 2 := by
        rcases bytes with _ | ⟨a, _ | ⟨b, rest⟩⟩
        · simp
        · simp
        · exact absurd rfl (hshort a b rest)
      simp only [List.length_nil]
      omega
    · exact hshort

/-- Indexes are taken, and are as many as were asked for. -/
theorem lags_indexes (count : Nat) :
    Lags (indexes count) ((2 * count : Nat) : Int) fun l => l.length = count := by
  have hlags := (lags_take (2 * count)).bind (l := 0) (Q := fun l => l.length = count)
    (f := fun bytes => pure (indexes.pairs bytes)) fun bytes hbytes => lags_pure (by
      rw [length_pairs, hbytes]
      omega)
  rwa [Int.add_zero] at hlags

theorem balanced_withPool {f : WithPool α} {Q : Constants → α → Prop} (hf : Pool.Interns f Q) :
    Balanced (withPool f) := by
  rintro ⟨pool, cursor, copied⟩ a s' hsound hrun
  unfold withPool at hrun
  dsimp only at hrun
  rcases hfirst : f pool with ⟨r, p'⟩
  rw [hfirst] at hrun
  cases hrun
  obtain ⟨hsound', hgrown, -⟩ := hf pool a p' hsound hfirst
  exact ⟨[], [], ⟨hsound', hgrown, rfl, rfl, rfl⟩, by simp, trivial⟩

theorem balanced_renamedIndex (index : UInt16) (rename : String → Option String) :
    Balanced (renamedIndex index rename) := by
  refine balanced_constants.bind fun cs => ?_
  split
  · exact balanced_pure _
  · split
    · exact balanced_pure _
    · exact balanced_withPool (Pool.interns_internText _)

theorem balanced_renamedText (rename : String → Option String) :
    Balanced (renamedText rename) := by
  refine (lags_indexes 1).balanced (l := -2) (Q := fun _ => True) (fun l _ => ?_) (by omega)
  refine balanced_constants.bind fun cs => ?_
  refine (balanced_renamedIndex _ rename).bind fun index => ?_
  exact (lags_emitIndex index).bind fun _ _ => lags_pure trivial

theorem balanced_times {c : Copy Unit} (hc : Balanced c) (n : Nat) : Balanced (times n c) := by
  induction n with
  | zero => exact balanced_pure ()
  | succ n ih => exact hc.bind fun _ => ih

theorem balanced_counted {item : Copy Unit} (size : Nat) (h : Balanced item) :
    Balanced (counted size item) :=
  (balanced_number size).bind fun n => balanced_times h n

section

variable (resolver : Resolver) (owner : String)

theorem balanced_descriptor : Balanced (descriptor resolver) :=
  (balanced_renamedText _).bind fun _ => balanced_pure ()

theorem balanced_signature : Balanced (signature resolver) :=
  (balanced_renamedText _).bind fun _ => balanced_pure ()

theorem balanced_enumConstant : Balanced (enumConstant resolver) := by
  refine (lags_indexes 2).balanced (l := -4) (Q := fun _ => True) (fun l hl => ?_) (by omega)
  obtain ⟨type, name, rfl⟩ := List.length_eq_two.1 hl
  refine balanced_constants.bind fun cs => ?_
  refine (balanced_renamedIndex _ _).bind fun index => ?_
  refine (lags_emitIndex index).bind (l := -2) fun _ _ => ?_
  split
  · exact (balanced_renamedIndex _ _).bind fun index => lags_emitIndex index
  · exact lags_emitIndex name

/-- Annotations and the values of their elements, whichever holds the other. -/
theorem balanced_annotations (depth : Nat) :
    Balanced (annotationEntry resolver depth) ∧ Balanced (elementValue resolver depth) := by
  induction depth with
  | zero =>
    rw [annotationEntry, elementValue]
    exact ⟨balanced_pure (), balanced_pure ()⟩
  | succ depth ih =>
    obtain ⟨hentry, hvalue⟩ := ih
    constructor
    · rw [annotationEntry]
      refine (balanced_renamedText _).bind fun desc => ?_
      refine balanced_counted 2 ?_
      exact (balanced_renamedText _).bind fun _ => hvalue
    · rw [elementValue]
      refine (balanced_number 1).bind fun tag => ?_
      split
      all_goals
        first
        | exact balanced_copy 2
        | exact balanced_enumConstant resolver
        | exact balanced_descriptor resolver
        | exact hentry
        | exact balanced_counted 2 hvalue
        | exact lags_throw _

theorem balanced_typeAnnotationEntry (depth : Nat) :
    Balanced (typeAnnotationEntry resolver depth) := by
  have hpath : Balanced (do
      copy ((← number 1) * 2)
      annotationEntry resolver depth) :=
    (balanced_number 1).bind fun _ => (balanced_copy _).bind fun _ =>
      (balanced_annotations resolver depth).1
  refine (balanced_number 1).bind fun target => ?_
  dsimp only
  split
  · exact (balanced_copy 1).bind fun _ => hpath
  · split
    · exact (balanced_copy 2).bind fun _ => hpath
    · split
      · exact hpath
      · split
        · exact (balanced_number 2).bind fun _ => (balanced_copy _).bind fun _ => hpath
        · split
          · exact (balanced_copy 3).bind fun _ => hpath
          · exact Balanced.bind (lags_throw _) fun _ => hpath

theorem balanced_enclosingMethod : Balanced (enclosingMethod resolver) := by
  refine (lags_indexes 2).balanced (l := -4) (Q := fun _ => True) (fun l hl => ?_) (by omega)
  obtain ⟨declarer, method, rfl⟩ := List.length_eq_two.1 hl
  refine (lags_emitIndex declarer).bind (l := -2) fun _ _ => ?_
  split
  · exact lags_emitIndex method
  · refine balanced_constants.bind fun cs => balanced_constants.bind fun cs' => ?_
    split
    · exact (balanced_withPool (Pool.interns_internPair _ _)).bind fun index => lags_emitIndex index
    · exact lags_emitIndex method

theorem balanced_innerClass : Balanced (innerClass resolver) := by
  refine (lags_indexes 4).balanced (l := -8) (Q := fun _ => True) (fun l hl => ?_) (by omega)
  match l, hl with
  | [inner, outer, simple, flags], _ =>
    refine (lags_emitIndex inner).bind (l := -6) fun _ _ => ?_
    refine (lags_emitIndex outer).bind (l := -4) fun _ _ => ?_
    refine balanced_constants.bind fun cs => ?_
    have hsimple : ∀ index, Lags (emitIndex index >>= fun _ => emitIndex flags) (-4)
        fun _ => True :=
      fun index => (lags_emitIndex index).bind (l := -2) fun _ _ => lags_emitIndex flags
    dsimp only
    split
    · split
      · exact hsimple simple
      · exact (balanced_renamedIndex _ _).bind fun index => hsimple index
    · exact hsimple simple

theorem balanced_recordComponent : Balanced (recordComponent resolver owner) := by
  refine (lags_indexes 2).balanced (l := -4) (Q := fun _ => True) (fun l hl => ?_) (by omega)
  obtain ⟨name, type, rfl⟩ := List.length_eq_two.1 hl
  refine balanced_constants.bind fun cs => ?_
  have hname : ∀ index, Lags (do
      emitIndex index
      emitIndex (← renamedIndex type fun desc => some (resolver.newDescriptor desc))) (-4)
        fun _ => True :=
    fun index => (lags_emitIndex index).bind (l := -2) fun _ _ =>
      (balanced_renamedIndex _ _).bind fun index => lags_emitIndex index
  dsimp only
  split
  · exact (balanced_renamedIndex _ _).bind fun index => hname index
  · exact hname name

theorem balanced_localVariable {type : Copy Unit} (h : Balanced type) :
    Balanced (localVariable type) :=
  (balanced_copy 6).bind fun _ => h.bind fun _ => balanced_copy 2

end

theorem copies_copy (count : Nat) :
    Copies (copy count) fun taken written _ => written = taken ∧ taken.length = count := by
  intro s a s' hsound hrun
  obtain ⟨bytes, next, hfirst, hrun⟩ := bind_eq_ok hrun
  obtain ⟨taken, written, hstep, htaken, hnone, hlength⟩ := copies_take count s bytes next hsound hfirst
  obtain ⟨taken', written', hstep', hnone', hwritten⟩ := copies_emit bytes next a s' hstep.sound hrun
  subst htaken hnone hnone' hwritten
  have hboth := hstep.trans hstep'
  rw [List.append_nil, List.nil_append] at hboth
  exact ⟨_, _, hboth, rfl, hlength⟩

/-- An index is written as it was taken. -/
theorem bytesOfNat_index {bytes : List UInt8} (h : bytes.length = 2) :
    bytesOfNat 2 (natOfBytes bytes).toUInt16.toNat = bytes := by
  have hlt := natOfBytes_lt bytes
  rw [h] at hlt
  have hindex : (natOfBytes bytes).toUInt16.toNat = natOfBytes bytes := Nat.mod_eq_of_lt hlt
  rw [hindex, ← h, bytesOfNat_natOfBytes]

section Pools

variable {s s' : State}

theorem pool_take {count : Nat} {r : Except ClassFault (List UInt8)}
    (h : take count s = (r, s')) : s'.pool = s.pool := by
  unfold take at h
  split at h <;> cases h <;> rfl

theorem pool_emit {bytes : List UInt8} {r : Except ClassFault Unit} (h : emit bytes s = (r, s')) :
    s'.pool = s.pool := by
  cases h
  rfl

theorem pool_copy {count : Nat} {a : Unit} (h : copy count s = (.ok a, s')) :
    s'.pool = s.pool := by
  obtain ⟨bytes, next, htake, hemit⟩ := bind_eq_ok h
  rw [pool_emit hemit, pool_take htake]

theorem pool_number {count n : Nat} (h : number count s = (.ok n, s')) : s'.pool = s.pool := by
  obtain ⟨bytes, next, htake, h⟩ := bind_eq_ok h
  obtain ⟨⟨⟩, last, hemit, h⟩ := bind_eq_ok h
  cases h
  rw [pool_emit hemit, pool_take htake]

theorem step_emitIndex {index : UInt16} {a : Unit} (hsound : s.pool.Sound)
    (hrun : emitIndex index s = (.ok a, s')) : Step s s' [] (bytesOfNat 2 index.toNat) := by
  obtain ⟨taken, written, hstep, rfl, rfl⟩ := copies_emit _ s a s' hsound hrun
  exact hstep

end Pools

/-! ### Attributes of a table -/

/-- What copying an attribute does: it copies the index of its name and its length, then its
contents by this name, and then what they leave of it. -/
structure AttributeRun (contents : String → Copy Unit) (index length : List UInt8)
    (s s₁ s₂ s₃ s' : State) : Prop where
  two : index.length = 2
  four : length.length = 4
  named : Step s s₁ index index
  measured : Step s₁ s₂ length length
  pool₁ : s₁.pool = s.pool
  pool₂ : s₂.pool = s.pool
  known : contents ((s.pool.constants.utf8? (natOfBytes index).toUInt16).getD "") s₂ =
    (.ok (), s₃)
  unknown : ∀ {known known'}, Step s₂ s₃ known known' → ∃ rest,
    (known ++ rest).length = natOfBytes length ∧ Step s₃ s' rest rest ∧ s'.pool = s₃.pool

theorem attributeEntry_eq_ok {contents : String → Copy Unit} {s s' : State} {a : Unit}
    (hsound : s.pool.Sound) (hrun : attributeEntry contents s = (.ok a, s')) :
    ∃ index length s₁ s₂ s₃, AttributeRun contents index length s s₁ s₂ s₃ s' := by
  obtain ⟨_, s₀, hfirst, hrun⟩ := bind_eq_ok hrun
  obtain ⟨index, _, htake, rfl, rfl, htwo⟩ := copies_take 2 s _ s₀ hsound hfirst
  have hpool₀ := pool_take hfirst
  obtain ⟨⟨⟩, s₁, hfirst, hrun⟩ := bind_eq_ok hrun
  have hindex := htake.trans (step_emitIndex htake.sound hfirst)
  rw [bytesOfNat_index htwo, List.append_nil, List.nil_append] at hindex
  have hpool₁ := (pool_emit hfirst).trans hpool₀
  obtain ⟨_, s₂, hfirst, hrun⟩ := bind_eq_ok hrun
  obtain ⟨_, length, hlength, rfl, hfour, rfl⟩ := copies_number 4 s₁ _ s₂ hindex.sound hfirst
  have hpool₂ := (pool_number hfirst).trans hpool₁
  obtain ⟨_, _, hget, hrun⟩ := bind_eq_ok hrun
  cases hget
  dsimp only at hrun
  split at hrun
  · cases hrun
  obtain ⟨cs, _, hget, hrun⟩ := bind_eq_ok hrun
  cases hget
  obtain ⟨⟨⟩, s₃, hcontents, hrun⟩ := bind_eq_ok hrun
  obtain ⟨_, _, hget, hrun⟩ := bind_eq_ok hrun
  cases hget
  split at hrun
  · cases hrun
  next hend =>
  rw [hpool₂] at hcontents
  refine ⟨index, length, s₁, s₂, s₃, htwo, hfour, hindex, hlength, hpool₁, hpool₂, hcontents, ?_⟩
  intro known known' hknown
  obtain ⟨_, rest, hrest, rfl, hcount⟩ := copies_copy _ s₃ a s' hknown.sound hrun
  refine ⟨rest, ?_, hrest, pool_copy hrun⟩
  rw [hknown.offset] at hcount hend
  rw [List.length_append]
  omega

/-- An attribute of a table: its index, its length, and so many bytes. -/
theorem copies_attributeEntry {contents : String → Copy Unit}
    (hcontents : ∀ name, Balanced (contents name)) :
    Copies (attributeEntry contents) fun taken written _ =>
      taken.length = written.length ∧ IsAttribute written := by
  intro s a s' hsound hrun
  obtain ⟨index, length, s₁, s₂, s₃, h⟩ := attributeEntry_eq_ok hsound hrun
  obtain ⟨known, renamed, hknown, hsame, -⟩ := hcontents _ s₂ _ s₃ h.measured.sound h.known
  obtain ⟨rest, hbody, hrest, -⟩ := h.unknown hknown
  refine ⟨_, _, ((h.named.trans h.measured).trans hknown).trans hrest, ?_, index, length,
    renamed ++ rest, ?_, h.two, h.four, ?_⟩
  · simp only [List.length_append]
    omega
  · simp
  · rw [List.length_append] at hbody ⊢
    omega

theorem balanced_attributeEntry {contents : String → Copy Unit}
    (hcontents : ∀ name, Balanced (contents name)) : Balanced (attributeEntry contents) := by
  intro s a s' hsound hrun
  obtain ⟨taken, written, hstep, hlength, -⟩ := copies_attributeEntry hcontents s a s' hsound hrun
  exact ⟨taken, written, hstep, by omega, trivial⟩

section

variable (resolver : Resolver) (owner : String)

/-- Tables and the contents of attributes, whichever holds the other. -/
theorem balanced_table (depth : Nat) : Balanced (table resolver owner depth) ∧
    ∀ name, Balanced (contents resolver owner depth name) := by
  induction depth with
  | zero =>
    refine ⟨?_, fun name => ?_⟩
    · rw [table]
      exact balanced_pure ()
    · rw [contents]
      exact balanced_pure ()
  | succ depth ih =>
    obtain ⟨htable, hcontents⟩ := ih
    have hentries : Balanced (counted 2 (annotationEntry resolver depth)) :=
      balanced_counted 2 (balanced_annotations resolver depth).1
    refine ⟨?_, fun name => ?_⟩
    · rw [table]
      exact balanced_counted 2 (balanced_attributeEntry hcontents)
    · unfold contents
      split
      · exact balanced_signature resolver
      · exact (balanced_copy 4).bind fun _ => (balanced_number 4).bind fun _ =>
          (balanced_copy _).bind fun _ => (balanced_number 2).bind fun _ =>
            (balanced_copy _).bind fun _ => htable
      · exact balanced_counted 2 (balanced_localVariable (balanced_descriptor resolver))
      · exact balanced_counted 2 (balanced_localVariable (balanced_signature resolver))
      · exact hentries
      · exact hentries
      · exact balanced_counted 1 hentries
      · exact balanced_counted 1 hentries
      · exact balanced_counted 2 (balanced_typeAnnotationEntry resolver depth)
      · exact balanced_counted 2 (balanced_typeAnnotationEntry resolver depth)
      · exact (balanced_annotations resolver depth).2
      · exact balanced_enclosingMethod resolver
      · exact balanced_counted 2 (balanced_innerClass resolver)
      · exact balanced_counted 2
          ((balanced_recordComponent resolver owner).bind fun _ => htable)
      · exact balanced_pure ()

/-- So many parts that are written as attributes. -/
theorem copies_times {c : Copy Unit} {P : List UInt8 → Prop}
    (hc : Copies c fun _ written _ => P written) (n : Nat) :
    Copies (times n c) fun _ written _ =>
      ∃ parts : List (List UInt8), written = parts.flatten ∧ parts.length = n ∧
        ∀ part ∈ parts, P part := by
  induction n with
  | zero =>
    rintro s a s' hsound hrun
    cases hrun
    exact ⟨[], [], .refl hsound, [], rfl, rfl, by simp⟩
  | succ n ih =>
    intro s a s' hsound hrun
    obtain ⟨b, next, hfirst, hrun⟩ := bind_eq_ok hrun
    obtain ⟨taken, written, hstep, hP⟩ := hc s b next hsound hfirst
    obtain ⟨_, _, hrest, parts, rfl, rfl, hparts⟩ := ih next a s' hstep.sound hrun
    refine ⟨_, _, hstep.trans hrest, written :: parts, by simp, by simp, ?_⟩
    intro part hpart
    rcases List.mem_cons.1 hpart with rfl | hpart
    · exact hP
    · exact hparts part hpart

/-- A table without attributes stays as it is. -/
theorem rename_empty (p : Pool) : rename resolver owner [0, 0] p = (.ok [0, 0], p) := by
  have hcount : number 2 { pool := p, cursor := ⟨[0, 0], 0⟩ } =
      (.ok 0, { pool := p, cursor := ⟨[], 2⟩, copied := [0, 0] }) := rfl
  rw [rename, table, counted, bind_of_ok hcount]
  rfl

/-- A renamed attribute table is a table, and the pool is only extended. -/
theorem interns_rename (attributes : List UInt8) :
    Pool.Interns (rename resolver owner attributes) fun _ renamed => IsAttributeTable renamed := by
  intro p renamed p' hsound hrun
  unfold rename at hrun
  rw [table] at hrun
  have hitem : Copies (attributeEntry (contents resolver owner attributes.length))
      fun _ written _ => IsAttribute written := by
    intro s a s' hs hrun
    obtain ⟨taken, written, hstep, -, hattribute⟩ :=
      copies_attributeEntry (balanced_table resolver owner attributes.length).2 s a s' hs hrun
    exact ⟨taken, written, hstep, hattribute⟩
  rcases hcopied : counted 2 (attributeEntry (contents resolver owner attributes.length))
    { pool := p, cursor := ⟨attributes, 0⟩ } with ⟨r, s'⟩
  rw [hcopied] at hrun
  cases r with
  | error e => cases hrun
  | ok a =>
    cases hrun
    obtain ⟨_, s1, hfirst, hrun⟩ := bind_eq_ok hcopied
    obtain ⟨_, count, hcount, rfl, htwo, rfl⟩ := copies_number 2 _ _ s1 hsound hfirst
    obtain ⟨_, _, hrest, parts, rfl, hparts, hattributes⟩ :=
      copies_times hitem _ s1 a s' hcount.sound hrun
    have hall := hcount.trans hrest
    refine ⟨hall.sound, hall.grown, count, parts, ?_, htwo, hparts.symm, hattributes⟩
    rw [hall.copied, List.append_nil, List.reverse_reverse]

end

end JarRemap.Attributes
