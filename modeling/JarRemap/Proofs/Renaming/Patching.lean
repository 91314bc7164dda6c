import JarRemap.Proofs.Renaming.Copying
import JarRemap.Renaming.InPlace

/-!
# Patching and copying

Patching a table where it stands and copying it from front to back go through it side by side. What
was copied, what was taken but is not written yet, and what is left make up the table that is
patched, so every index is read and overwritten where it is about to be written. The bytes that are
left bound how deep what follows can be nested.
-/

namespace JarRemap.Attributes.InPlace

variable {α β γ δ : Type}

/-! ### States side by side -/

/-- A table that is patched and one that is copied, at the same place. -/
structure Matches (S : State) (s : Attributes.State) (pending : List UInt8) : Prop where
  pool : S.pool = s.pool
  bytes : S.bytes = s.copied.reverse ++ pending ++ s.cursor.rest
  offset : S.offset = s.cursor.offset
  place : s.copied.length + pending.length = s.cursor.offset

/-- What is accessed ends before the attributes end that stand inside of those. -/
def Access.Within (around : List Nat) (a : Access) : Prop :=
  ∃ inner, a.around = inner ++ around ∧ ∀ stop ∈ inner, a.stop ≤ stop

/-- Patching went on. What was accessed ends where patching stands now, and in all attributes around
it; what comes behind is as it was. -/
structure Advances (S S' : State) : Prop where
  length : S'.bytes.length = S.bytes.length
  behind : S'.bytes.drop S'.offset = S.bytes.drop S'.offset
  around : S'.around = S.around
  offset : S.offset ≤ S'.offset
  accesses : ∃ more, S'.accesses = more ++ S.accesses ∧
    ∀ a ∈ more, a.stop ≤ S'.offset ∧ a.Within S.around

/-- What comes of patching and of copying: values that fit and states at the same place again, with
so many bytes used at least, or the same fault. -/
inductive Lockstep (R : α → β → Prop) (used : Nat) (S : State) (s : Attributes.State) :
    Except Halt α × State → Except ClassFault β × Attributes.State → Prop
  | ok {a b S' s'} : R a b → Matches S' s' [] → Advances S S' →
      s'.cursor.rest.length + used ≤ s.cursor.rest.length →
        Lockstep R used S s (.ok a, S') (.ok b, s')
  | fault {e S' s'} : S'.pool = s'.pool → Lockstep R used S s (.error (.fault e), S') (.error e, s')

/-- Patching and copying agree as long as fewer bytes than the bound are left. -/
def Agrees (bound used : Nat) (R : α → β → Prop) (p : Patch α) (c : Copy β) : Prop :=
  ∀ S s, Matches S s [] → s.cursor.rest.length < bound → Lockstep R used S s (p S) (c s)

/-- Patching and copying agree when indexes were taken, the first of them from an offset, and none
of them is written yet. -/
def AgreesFrom (start : Nat) (indexes : List UInt16) (bound : Nat) (R : α → β → Prop)
    (p : Patch α) (c : Copy β) : Prop :=
  ∀ S s, Matches S s (indexes.flatMap fun index => bytesOfNat 2 index.toNat) →
    s.copied.length = start → s.cursor.rest.length < bound → Lockstep R 0 S s (p S) (c s)

section States

variable {S S₁ S₂ : State} {s : Attributes.State} {pending : List UInt8}

theorem Matches.length (h : Matches S s pending) :
    S.bytes.length = S.offset + s.cursor.rest.length := by
  rw [h.bytes, h.offset, ← h.place, List.length_append, List.length_append, List.length_reverse]

/-- What is left stands behind the offset. -/
theorem Matches.behind (h : Matches S s pending) : S.bytes.drop S.offset = s.cursor.rest := by
  rw [h.bytes, List.drop_left']
  rw [h.offset, ← h.place, List.length_append, List.length_reverse]

theorem Matches.note (h : Matches S s pending) (start stop : Nat) :
    Matches (S.note start stop) s pending :=
  ⟨h.pool, h.bytes, h.offset, h.place⟩

/-- What is taken first is written first. -/
theorem Matches.emit {first : List UInt8} (h : Matches S s (first ++ pending)) :
    Matches S { s with copied := first.reverse ++ s.copied } pending := by
  refine ⟨h.pool, ?_, h.offset, ?_⟩
  · rw [h.bytes]
    simp
  · have hplace := h.place
    simp only [List.length_append, List.length_reverse] at hplace ⊢
    omega

theorem Access.Within.refl {around : List Nat} (start stop : Nat) :
    Access.Within around ⟨start, stop, around⟩ :=
  ⟨[], rfl, by simp⟩

theorem Advances.refl (S : State) : Advances S S :=
  ⟨rfl, rfl, rfl, Nat.le_refl _, [], rfl, by simp⟩

/-- What is as it was behind an offset is as it was behind a later one. -/
theorem drop_eq_of_le {l l' : List UInt8} {m n : Nat} (h : l.drop m = l'.drop m) (hle : m ≤ n) :
    l.drop n = l'.drop n := by
  rw [← Nat.add_sub_of_le hle, ← List.drop_drop, ← List.drop_drop, h]

theorem Advances.trans (h₁ : Advances S S₁) (h₂ : Advances S₁ S₂) : Advances S S₂ := by
  obtain ⟨more, hmore, hwithin⟩ := h₁.accesses
  obtain ⟨later, hlater, hwithin'⟩ := h₂.accesses
  refine ⟨h₂.length.trans h₁.length, h₂.behind.trans (drop_eq_of_le h₁.behind h₂.offset),
    h₂.around.trans h₁.around, h₁.offset.trans h₂.offset, later ++ more,
    by rw [hlater, hmore, List.append_assoc], fun a ha => ?_⟩
  rcases List.mem_append.1 ha with ha | ha
  · rw [← h₁.around]
    exact hwithin' a ha
  · exact ⟨(hwithin a ha).1.trans h₂.offset, (hwithin a ha).2⟩

/-- Accesses to what was gone through already. -/
theorem Advances.note {start stop : Nat} (h : stop ≤ S.offset) :
    Advances S (S.note start stop) := by
  refine ⟨rfl, rfl, rfl, Nat.le_refl _, [⟨start, stop, S.around⟩], rfl, fun a ha => ?_⟩
  rw [List.mem_singleton.1 ha]
  exact ⟨h, .refl _ _⟩

/-- What was used before is used in all. -/
theorem Lockstep.from {R : α → β → Prop} {used : Nat} {s₁ : Attributes.State}
    {x : Except Halt α × State} {y : Except ClassFault β × Attributes.State}
    (h : Lockstep R 0 S₁ s₁ x y) (hadvances : Advances S S₁)
    (hused : s₁.cursor.rest.length + used ≤ s.cursor.rest.length) : Lockstep R used S s x y := by
  cases h with
  | ok hR hmatches hnext hrest => exact .ok hR hmatches (hadvances.trans hnext) (by omega)
  | fault hpool => exact .fault hpool

theorem Lockstep.mono {R : α → β → Prop} {used used' : Nat} {x : Except Halt α × State}
    {y : Except ClassFault β × Attributes.State} (h : Lockstep R used S s x y)
    (hused : used' ≤ used) : Lockstep R used' S s x y := by
  cases h with
  | ok hR hmatches hadvances hrest => exact .ok hR hmatches hadvances (by omega)
  | fault hpool => exact .fault hpool

end States

/-! ### Single steps -/

section Steps

variable {S : State} {s : Attributes.State} {pending : List UInt8} {count start : Nat}

/-- Bytes that are there are skipped where they are taken. -/
theorem skip_of_matches (h : Matches S s []) (hcount : count ≤ s.cursor.rest.length) :
    ∃ S' s', skip count S = (.ok S.offset, S') ∧
      take count s = (.ok (s.cursor.rest.take count), s') ∧
      Matches S' s' (s.cursor.rest.take count) ∧ Advances S S' ∧ s'.copied = s.copied ∧
      s'.cursor.rest = s.cursor.rest.drop count := by
  have hlength := h.length
  have htaken : (s.cursor.rest.take count).length = count := by
    rw [List.length_take, Nat.min_eq_left hcount]
  have htake : s.cursor.take? count = some (s.cursor.rest.take count,
      ⟨s.cursor.rest.drop count, s.cursor.offset + count⟩) := by
    rw [Cursor.take?, if_pos htaken]
  refine ⟨{ S with offset := S.offset + count }.note S.offset (S.offset + count),
    { s with cursor := ⟨s.cursor.rest.drop count, s.cursor.offset + count⟩ }, ?_, ?_, ?_, ?_, rfl,
    rfl⟩
  · unfold skip
    dsimp only
    rw [if_pos (by omega)]
  · unfold take
    rw [htake]
  · refine ⟨h.pool, ?_, congrArg (· + count) h.offset, ?_⟩
    · have hbytes := h.bytes
      rw [List.append_nil] at hbytes
      rw [List.append_assoc, List.take_append_drop]
      exact hbytes
    · have hplace := h.place
      rw [List.length_nil] at hplace
      dsimp only
      rw [htaken]
      omega
  · refine ⟨rfl, rfl, rfl, Nat.le_add_right _ _, [⟨S.offset, S.offset + count, S.around⟩], rfl, ?_⟩
    intro a ha
    rw [List.mem_singleton.1 ha]
    exact ⟨Nat.le_refl _, .refl _ _⟩

/-- Where bytes are lacking, both find the same fault. -/
theorem skip_of_short (h : Matches S s []) (hcount : s.cursor.rest.length < count) :
    skip count S = (.error (.fault (.truncatedAttribute s.cursor.offset)), S) ∧
      take count s = (.error (.truncatedAttribute s.cursor.offset), s) := by
  have hlength := h.length
  have htake : s.cursor.take? count = none := by
    rw [Cursor.take?, if_neg (by rw [List.length_take]; omega)]
  constructor
  · unfold skip
    dsimp only
    rw [if_neg (by omega), h.offset]
  · unfold take
    rw [htake]

/-- What was taken is still read where it stands. -/
theorem bytesAt_of_matches {before found after : List UInt8}
    (h : Matches S s (before ++ found ++ after))
    (hstart : start = s.copied.length + before.length) (hcount : count = found.length) :
    ∃ S', bytesAt start count S = (.ok found, S') ∧ Matches S' s (before ++ found ++ after) ∧
      Advances S S' := by
  have hlength := h.length
  have hplace := h.place
  have hoffset := h.offset
  simp only [List.length_append] at hplace
  have hbytes : S.bytes = (s.copied.reverse ++ before) ++ (found ++ (after ++ s.cursor.rest)) := by
    rw [h.bytes]
    simp only [List.append_assoc]
  have hfound : (S.bytes.drop start).take count = found := by
    rw [hbytes, List.drop_left' (by simp [hstart]), hcount, List.take_left]
  refine ⟨S.note start (start + count), ?_, h.note _ _, Advances.note (by omega)⟩
  unfold bytesAt
  dsimp only
  rw [if_pos (by omega), hfound]

/-- An index is read where it stands. -/
theorem indexAt_of_matches {before after : List UInt8} {index : UInt16}
    (h : Matches S s (before ++ bytesOfNat 2 index.toNat ++ after))
    (hstart : start = s.copied.length + before.length) :
    ∃ S', indexAt start S = (.ok index, S') ∧
      Matches S' s (before ++ bytesOfNat 2 index.toNat ++ after) ∧ Advances S S' := by
  obtain ⟨S', hread, hmatches, hadvances⟩ :=
    bytesAt_of_matches h hstart (length_bytesOfNat 2 index.toNat).symm
  have hindex : (natOfBytes (bytesOfNat 2 index.toNat)).toUInt16 = index := by
    rw [natOfBytes_bytesOfNat index.toNat_lt]
    exact UInt16.ofNat_toNat
  refine ⟨S', ?_, hmatches, hadvances⟩
  rw [show indexAt start S = _ from bind_of_ok hread, hindex]
  rfl

/-- A number is read where its bytes are taken. -/
theorem number_of_matches (h : Matches S s []) (hcount : count ≤ s.cursor.rest.length) :
    ∃ S' s' bytes, number count S = (.ok (natOfBytes bytes), S') ∧ take count s = (.ok bytes, s') ∧
      bytes.length = count ∧ Matches S' s' bytes ∧ Advances S S' ∧
      s'.cursor.rest.length + count ≤ s.cursor.rest.length := by
  obtain ⟨S₁, s', hskip, htake, hmatches, hadvances, hcopied, hrest⟩ := skip_of_matches h hcount
  have hplace := h.place
  rw [List.length_nil] at hplace
  have htaken : (s.cursor.rest.take count).length = count := by
    rw [List.length_take, Nat.min_eq_left hcount]
  have hpending : Matches S₁ s' ([] ++ s.cursor.rest.take count ++ []) := by
    rwa [List.append_nil]
  have hstart : S.offset = s'.copied.length + 0 := by
    rw [h.offset, hcopied, ← hplace]
  obtain ⟨S', hread, hmatches', hadvances'⟩ := bytesAt_of_matches hpending hstart htaken.symm
  refine ⟨S', s', _, (bind_of_ok hskip).trans (bind_of_ok hread), htake, htaken, ?_,
    hadvances.trans hadvances', ?_⟩
  · rwa [List.append_nil] at hmatches'
  · rw [hrest, List.length_drop]
    omega

/-- What is written next is overwritten where it stands. -/
theorem overwrite_of_matches {old new : List UInt8} (h : Matches S s (old ++ pending))
    (hstart : start = s.copied.length) (hnew : new.length = old.length) :
    ∃ S', overwrite start new S = (.ok (), S') ∧ Matches S' s (new ++ pending) ∧
      Advances S S' := by
  have hlength := h.length
  have hplace := h.place
  have hoffset := h.offset
  simp only [List.length_append] at hplace
  have hbytes : S.bytes = s.copied.reverse ++ (old ++ (pending ++ s.cursor.rest)) := by
    rw [h.bytes]
    simp only [List.append_assoc]
  have hfront : S.bytes.take start = s.copied.reverse := by
    rw [hbytes, List.take_left' (by simp [hstart])]
  have hback : S.bytes.drop (start + new.length) = pending ++ s.cursor.rest := by
    rw [hbytes, ← List.append_assoc, List.drop_left' (by simp [hstart, hnew])]
  have hmatches : Matches
      ({ S with bytes := S.bytes.take start ++ new ++ S.bytes.drop (start + new.length) }.note start
        (start + new.length)) s (new ++ pending) := by
    refine ⟨h.pool, ?_, h.offset, ?_⟩
    · change S.bytes.take start ++ new ++ S.bytes.drop (start + new.length) = _
      rw [hfront, hback]
      simp only [List.append_assoc]
    · rw [List.length_append, hnew]
      exact hplace
  refine ⟨_, ?_, hmatches, ?_, hmatches.behind.trans h.behind.symm, rfl, Nat.le_refl _,
    [⟨start, start + new.length, S.around⟩], rfl, fun a ha => ?_⟩
  · unfold overwrite
    dsimp only
    rw [if_pos (by omega)]
  · rw [hmatches.length, hlength]
    rfl
  · rw [List.mem_singleton.1 ha]
    refine ⟨?_, .refl _ _⟩
    change start + new.length ≤ S.offset
    omega

/-- Appending to the pool is the same for both. -/
theorem withPool_of_matches (h : Matches S s pending) (f : WithPool α) :
    ∃ r p, withPool f S = (r.mapError .fault, { S with pool := p }) ∧
      Attributes.withPool f s = (r, { s with pool := p }) ∧
      Matches { S with pool := p } { s with pool := p } pending ∧
      Advances S { S with pool := p } := by
  refine ⟨(f S.pool).1, (f S.pool).2, rfl, ?_, ⟨rfl, h.bytes, h.offset, h.place⟩, ?_⟩
  · rw [h.pool]
    rfl
  · exact ⟨rfl, rfl, rfl, Nat.le_refl _, [], rfl, by simp⟩

end Steps

/-! ### Agreement -/

section Agreement

variable {bound bound' used used' count : Nat} {R : α → β → Prop} {Q : γ → δ → Prop}
  {p : Patch α} {c : Copy β} {q : α → Patch γ} {d : β → Copy δ}

theorem Agrees.mono (h : Agrees bound used R p c) (hbound : bound' ≤ bound) (hused : used' ≤ used) :
    Agrees bound' used' R p c := by
  intro S s hmatches hrest
  exact (h S s hmatches (by omega)).mono hused

/-- One part after the other. What the first one uses is not left for the second one. -/
theorem Agrees.bind (h : Agrees bound used R p c)
    (hnext : ∀ a b, R a b → Agrees (bound - used) 0 Q (q a) (d b)) :
    Agrees bound used Q (p >>= q) (c >>= d) := by
  intro S s hmatches hrest
  have hfirst := h S s hmatches hrest
  rcases hp : p S with ⟨r, S₁⟩
  rcases hc : c s with ⟨r', s₁⟩
  rw [hp, hc] at hfirst
  cases hfirst with
  | ok hR hmatches₁ hadvances hleft =>
    rw [bind_of_ok hp, bind_of_ok hc]
    exact (hnext _ _ hR S₁ s₁ hmatches₁ (by omega)).from hadvances hleft
  | fault hpool =>
    rw [bind_of_error hp, bind_of_error hc]
    exact .fault hpool

theorem Agrees.forget (h : Agrees bound used R p c) : Agrees bound 0 R p c :=
  h.mono (Nat.le_refl _) (Nat.zero_le _)

theorem Agrees.andThen (h : Agrees bound used R p c)
    (hnext : ∀ a b, R a b → Agrees (bound - used) 0 Q (q a) (d b)) :
    Agrees bound 0 Q (p >>= q) (c >>= d) :=
  (h.bind hnext).forget

/-- Nothing is left to go through. -/
theorem agrees_zero : Agrees 0 used R p c := fun _ _ _ hbound => absurd hbound (Nat.not_lt_zero _)

theorem agrees_pure {a : α} {b : β} (h : R a b) : Agrees bound 0 R (pure a) (pure b) :=
  fun S _ hmatches _ => .ok h hmatches (.refl S) (Nat.le_refl _)

theorem agrees_throw (e : ClassFault) :
    Agrees bound 0 R (throw (.fault e) : Patch α) (throw e : Copy β) :=
  fun _ _ hmatches _ => .fault hmatches.pool

theorem agrees_ite {P : Prop} [Decidable P] {p' : Patch α} {c' : Copy β}
    (h : P → Agrees bound used R p c) (h' : ¬P → Agrees bound used R p' c') :
    Agrees bound used R (if P then p else p') (if P then c else c') := by
  split
  · next hP => exact h hP
  · next hP => exact h' hP

/-- Bytes are skipped where they are copied. -/
theorem agrees_skip (count : Nat) :
    Agrees bound count (fun _ _ => True) (skip count) (copy count) := by
  intro S s hmatches _
  by_cases hcount : count ≤ s.cursor.rest.length
  · obtain ⟨S', s', hskip, htake, hmatches', hadvances, -, hrest⟩ :=
      skip_of_matches hmatches hcount
    rw [hskip, show copy count s = _ from bind_of_ok htake]
    refine .ok trivial (Matches.emit ?_) hadvances ?_
    · rwa [List.append_nil]
    · dsimp only
      rw [hrest, List.length_drop]
      omega
  · obtain ⟨hskip, htake⟩ := skip_of_short hmatches (Nat.lt_of_not_le hcount)
    rw [hskip, show copy count s = _ from bind_of_error htake]
    exact .fault hmatches.pool

theorem agrees_skipped (count : Nat) :
    Agrees bound count (fun _ _ => True) (skip count >>= fun _ => pure ()) (copy count) := by
  have hskip : Agrees bound count (fun _ _ => True) (skip count >>= fun _ => pure ())
      (copy count >>= fun _ => pure ()) :=
    (agrees_skip count).bind fun _ _ _ => agrees_pure trivial
  rwa [bind_pure_unit] at hskip

/-- A number is read where it is copied. -/
theorem agrees_number (count : Nat) :
    Agrees bound count Eq (number count) (Attributes.number count) := by
  intro S s hmatches _
  by_cases hcount : count ≤ s.cursor.rest.length
  · obtain ⟨S', s', bytes, hnumber, htake, -, hmatches', hadvances, hrest⟩ :=
      number_of_matches hmatches hcount
    rw [hnumber, show Attributes.number count s = _ from bind_of_ok htake]
    refine .ok rfl (Matches.emit ?_) hadvances hrest
    rwa [List.append_nil]
  · obtain ⟨hskip, htake⟩ := skip_of_short hmatches (Nat.lt_of_not_le hcount)
    rw [show number count S = _ from bind_of_error hskip,
      show Attributes.number count s = _ from bind_of_error htake]
    exact .fault hmatches.pool

/-- A number of two bytes is read where it is taken as an index and written again. -/
theorem agrees_index {q : Nat → Patch γ} {d : List UInt8 → Copy δ}
    (h : ∀ bytes, Agrees (bound - 2) 0 Q (q (natOfBytes bytes)) (d bytes)) :
    Agrees bound 2 Q (number 2 >>= q)
      (take 2 >>= fun bytes => emitIndex (natOfBytes bytes).toUInt16 >>= fun _ => d bytes) := by
  intro S s hmatches hbound
  by_cases hcount : 2 ≤ s.cursor.rest.length
  · obtain ⟨S', s', bytes, hnumber, htake, hlength, hmatches', hadvances, hrest⟩ :=
      number_of_matches hmatches hcount
    rw [bind_of_ok hnumber, bind_of_ok htake, emitIndex, bytesOfNat_index hlength,
      show (emit bytes >>= fun _ => d bytes) s' = _ from bind_of_ok rfl]
    rw [← List.append_nil bytes] at hmatches'
    exact (h bytes S' _ hmatches'.emit (by dsimp only; omega)).from hadvances hrest
  · obtain ⟨hskip, htake⟩ := skip_of_short hmatches (Nat.lt_of_not_le hcount)
    rw [bind_of_error (show number 2 S = _ from bind_of_error hskip), bind_of_error htake]
    exact .fault hmatches.pool

theorem agrees_times {p : Patch Unit} {c : Copy Unit} (h : Agrees bound 0 (fun _ _ => True) p c)
    (n : Nat) : Agrees bound 0 (fun _ _ => True) (times n p) (Attributes.times n c) := by
  induction n with
  | zero => exact agrees_pure trivial
  | succ n ih => exact h.bind fun _ _ _ => ih

theorem agrees_counted {p : Patch Unit} {c : Copy Unit} {size : Nat}
    (h : Agrees (bound - size) 0 (fun _ _ => True) p c) :
    Agrees bound size (fun _ _ => True) (counted size p) (Attributes.counted size c) := by
  refine (agrees_number size).bind fun n _ hn => ?_
  rw [← hn]
  exact agrees_times h n

theorem Agrees.listed {p : Patch Unit} {c : Copy Unit}
    (h : Agrees bound 0 (fun _ _ => True) p c) (size : Nat) :
    Agrees bound 0 (fun _ _ => True) (counted size p) (Attributes.counted size c) :=
  (agrees_counted (h.mono (Nat.sub_le _ _) (Nat.le_refl _))).forget

end Agreement

/-! ### Indexes -/

section Indexes

variable {bound start : Nat} {index : UInt16} {indexes : List UInt16} {R : α → β → Prop}
  {p : Patch α} {c : Copy β}

theorem length_flatMap_indexes (indexes : List UInt16) :
    (indexes.flatMap fun index => bytesOfNat 2 index.toNat).length = 2 * indexes.length := by
  induction indexes with
  | nil => rfl
  | cons index indexes ih =>
    rw [List.flatMap_cons, List.length_append, length_bytesOfNat, ih, List.length_cons]
    omega

/-- Indexes are skipped where they are taken, before any of them is written. -/
theorem agrees_indexes {q : Nat → Patch α} {d : List UInt16 → Copy β} (count : Nat)
    (h : ∀ start indexes, indexes.length = count →
      AgreesFrom start indexes (bound - 2 * count) R (q start) (d indexes)) :
    Agrees bound (2 * count) R (skip (2 * count) >>= q) (Attributes.indexes count >>= d) := by
  intro S s hmatches hbound
  by_cases hcount : 2 * count ≤ s.cursor.rest.length
  · obtain ⟨S₁, s₁, hskip, htake, hmatches₁, hadvances, hcopied, hrest⟩ :=
      skip_of_matches hmatches hcount
    have hplace := hmatches.place
    rw [List.length_nil] at hplace
    have htaken : (s.cursor.rest.take (2 * count)).length = 2 * count := by
      rw [List.length_take, Nat.min_eq_left hcount]
    rw [bind_of_ok hskip, show (Attributes.indexes count >>= d) s = _ from
      bind_of_ok (show Attributes.indexes count s = _ from bind_of_ok htake)]
    rw [← flatMap_pairs count htaken] at hmatches₁
    refine (h _ _ ?_ S₁ s₁ hmatches₁ ?_ ?_).from hadvances ?_
    · rw [length_pairs, htaken]
      omega
    · rw [hcopied, hmatches.offset, ← hplace]
      rfl
    · rw [hrest, List.length_drop]
      omega
    · rw [hrest, List.length_drop]
      omega
  · obtain ⟨hskip, htake⟩ := skip_of_short hmatches (Nat.lt_of_not_le hcount)
    rw [bind_of_error hskip, show (Attributes.indexes count >>= d) s = _ from
      bind_of_error (show Attributes.indexes count s = _ from bind_of_error htake)]
    exact .fault hmatches.pool

theorem agreesFrom_pure {a : α} {b : β} (h : R a b) :
    AgreesFrom start [] bound R (pure a) (pure b) :=
  fun S _ hmatches _ _ => .ok h hmatches (.refl S) (Nat.le_refl _)

/-- An index that is written as it was taken stays. -/
theorem agreesFrom_emit {d : Copy β} (h : AgreesFrom (start + 2) indexes bound R p d) :
    AgreesFrom start (index :: indexes) bound R p (emitIndex index >>= fun _ => d) := by
  intro S s hmatches hstart hbound
  rw [show (emitIndex index >>= fun _ => d) s = _ from bind_of_ok rfl]
  refine (h S _ hmatches.emit ?_ hbound).from (.refl S) (Nat.le_refl _)
  simp only [List.length_append, List.length_reverse, length_bytesOfNat]
  omega

/-- The last index that is written as it was taken. -/
theorem agreesFrom_emit_last {a : α} {R : α → Unit → Prop} (h : ∀ b, R a b) :
    AgreesFrom start [index] bound R (pure a) (emitIndex index) := by
  have hlast : AgreesFrom start [index] bound R (pure a)
      (emitIndex index >>= fun _ => pure ()) := agreesFrom_emit (agreesFrom_pure (h ()))
  rwa [bind_pure_unit] at hlast

/-- An index is read before it is written. -/
theorem agreesFrom_indexAt {q : UInt16 → Patch α} {place : Nat} (before : List UInt16)
    {after : List UInt16} (hplace : place = start + 2 * before.length)
    (h : AgreesFrom start (before ++ index :: after) bound R (q index) c) :
    AgreesFrom start (before ++ index :: after) bound R (indexAt place >>= q) c := by
  intro S s hmatches hstart hbound
  have hpending : (before ++ index :: after).flatMap (fun index => bytesOfNat 2 index.toNat) =
      before.flatMap (fun index => bytesOfNat 2 index.toNat) ++ bytesOfNat 2 index.toNat ++
        after.flatMap (fun index => bytesOfNat 2 index.toNat) := by
    rw [List.flatMap_append, List.flatMap_cons, List.append_assoc]
  have hfirst := hmatches
  rw [hpending] at hfirst
  have hbefore : place =
      s.copied.length + (before.flatMap fun index => bytesOfNat 2 index.toNat).length := by
    rw [hplace, hstart, length_flatMap_indexes]
  obtain ⟨S', hat, hmatches', hadvances⟩ := indexAt_of_matches hfirst hbefore
  rw [← hpending] at hmatches'
  rw [bind_of_ok hat]
  exact (h S' s hmatches' hstart hbound).from hadvances (Nat.le_refl _)

/-- Both look at the constants. -/
theorem agreesFrom_constants {q : Constants → Patch α} {d : Constants → Copy β}
    (h : ∀ cs, AgreesFrom start indexes bound R (q cs) (d cs)) :
    AgreesFrom start indexes bound R (constants >>= q) (Attributes.constants >>= d) := by
  intro S s hmatches hstart hbound
  rw [show (constants >>= q) S = q S.pool.constants S from bind_of_ok rfl,
    show (Attributes.constants >>= d) s = d s.pool.constants s from bind_of_ok rfl, hmatches.pool]
  exact h _ S s hmatches hstart hbound

/-- Only copying looks at the constants. -/
theorem agreesFrom_constants_right {d : Constants → Copy β}
    (h : ∀ cs, AgreesFrom start indexes bound R p (d cs)) :
    AgreesFrom start indexes bound R p (Attributes.constants >>= d) := by
  intro S s hmatches hstart hbound
  rw [show (Attributes.constants >>= d) s = d s.pool.constants s from bind_of_ok rfl]
  exact h _ S s hmatches hstart hbound

end Indexes

/-! ### Renamed indexes -/

/-- A pending index was overwritten by the one that is to be written for it, or both found the same
fault. -/
inductive Settles (a : α) (S : State) (s : Attributes.State) (pending : List UInt8) :
    Except Halt α × State → Except ClassFault UInt16 × Attributes.State → Prop
  | ok {S' s'} {index : UInt16} : Matches S' s' (bytesOfNat 2 index.toNat ++ pending) →
      Advances S S' → s'.copied = s.copied → s'.cursor = s.cursor →
        Settles a S s pending (.ok a, S') (.ok index, s')
  | fault {e S' s'} : S'.pool = s'.pool →
      Settles a S s pending (.error (.fault e), S') (.error e, s')

section Renamed

variable {S : State} {s : Attributes.State} {pending : List UInt8} {bound start : Nat}
  {index : UInt16} {indexes : List UInt16} {R : β → γ → Prop}

theorem Settles.behind {a : α} {S₁ : State} {x : Except Halt α × State}
    {y : Except ClassFault UInt16 × Attributes.State} (h : Settles a S₁ s pending x y)
    (hadvances : Advances S S₁) : Settles a S s pending x y := by
  cases h with
  | ok hmatches hnext hcopied hcursor =>
    exact .ok hmatches (hadvances.trans hnext) hcopied hcursor
  | fault hpool => exact .fault hpool

theorem Settles.andThen {p : Patch Unit} {y : Except ClassFault UInt16 × Attributes.State}
    (h : Settles () S s pending (p S) y) (a : α) :
    Settles a S s pending ((p >>= fun _ => pure a) S) y := by
  rcases hp : p S with ⟨r, S'⟩
  rw [hp] at h
  cases h with
  | ok hmatches hadvances hcopied hcursor =>
    rw [bind_of_ok hp]
    exact .ok hmatches hadvances hcopied hcursor
  | fault hpool =>
    rw [bind_of_error hp]
    exact .fault hpool

/-- The index of an appended constant is overwritten where it is to be written. -/
theorem settles_appended (h : Matches S s (bytesOfNat 2 index.toNat ++ pending))
    (hstart : start = s.copied.length) (f : WithPool UInt16) :
    Settles () S s pending
      ((withPool f >>= fun index => overwrite start (bytesOfNat 2 index.toNat)) S)
      (Attributes.withPool f s) := by
  obtain ⟨r, p, hpatch, hcopy, hmatches, hadvances⟩ := withPool_of_matches h f
  rw [hcopy]
  cases r with
  | error e =>
    rw [bind_of_error hpatch]
    exact .fault rfl
  | ok index' =>
    have hlength : (bytesOfNat 2 index'.toNat).length = (bytesOfNat 2 index.toNat).length := by
      rw [length_bytesOfNat, length_bytesOfNat]
    obtain ⟨S', hwrite, hmatches', hadvances'⟩ := overwrite_of_matches hmatches hstart hlength
    rw [(bind_of_ok hpatch).trans hwrite]
    exact .ok hmatches' (hadvances.trans hadvances') rfl rfl

/-- The index of a renamed text is overwritten where it is to be written. -/
theorem settles_renamed (h : Matches S s (bytesOfNat 2 index.toNat ++ pending))
    (hstart : start = s.copied.length) (rename : String → Option String) :
    Settles (s.pool.constants.utf8? index) S s pending (renameAt start rename S)
      (renamedIndex index rename s) := by
  have hfirst : Matches S s ([] ++ bytesOfNat 2 index.toNat ++ pending) := h
  obtain ⟨S₁, hat, hmatches, hadvances⟩ := indexAt_of_matches hfirst hstart
  have hpatch : renameAt start rename S = _ :=
    (bind_of_ok (show constants S = (.ok S.pool.constants, S) from rfl)).trans (bind_of_ok hat)
  have hcopy : renamedIndex index rename s = _ :=
    bind_of_ok (show Attributes.constants s = (.ok s.pool.constants, s) from rfl)
  rw [hpatch, hcopy, h.pool]
  dsimp only
  cases htext : s.pool.constants.utf8? index with
  | none => exact .ok hmatches hadvances rfl rfl
  | some text =>
    dsimp only [Option.bind_some]
    cases hrenamed : (rename text).filter (· ≠ text) with
    | none => exact .ok hmatches hadvances rfl rfl
    | some renamed =>
      have happended := settles_appended hmatches hstart (Pool.internText renamed)
      have hboth := (happended.andThen (some text)).behind hadvances
      rwa [bind_assoc] at hboth

/-- Once the first index is overwritten and written, the next ones follow. -/
theorem Settles.lockstep {a : α} {p : Patch α} {c : Copy UInt16} {q : α → Patch β} {d : Copy γ}
    (hfirst : Settles a S s (indexes.flatMap fun index => bytesOfNat 2 index.toNat) (p S) (c s))
    (hstart : s.copied.length = start) (hbound : s.cursor.rest.length < bound)
    (h : AgreesFrom (start + 2) indexes bound R (q a) d) :
    Lockstep R 0 S s ((p >>= q) S) ((c >>= fun index => emitIndex index >>= fun _ => d) s) := by
  rcases hp : p S with ⟨r, S'⟩
  rcases hc : c s with ⟨r', s'⟩
  rw [hp, hc] at hfirst
  cases hfirst with
  | ok hmatches hadvances hcopied hcursor =>
    rw [bind_of_ok hp, bind_of_ok hc, show (emitIndex _ >>= fun _ => d) s' = _ from bind_of_ok rfl]
    refine (h S' _ hmatches.emit ?_ ?_).from hadvances ?_
    · simp only [List.length_append, List.length_reverse, length_bytesOfNat, hcopied]
      omega
    · rw [hcursor]
      exact hbound
    · rw [hcursor]
      exact Nat.le_refl _
  | fault hpool =>
    rw [bind_of_error hp, bind_of_error hc]
    exact .fault hpool

/-- A renamed index, whatever its text was. -/
theorem agreesFrom_renameAt {rename : String → Option String} {q : Option String → Patch β}
    {d : Copy γ} (h : ∀ text, AgreesFrom (start + 2) indexes bound R (q text) d) :
    AgreesFrom start (index :: indexes) bound R (renameAt start rename >>= q)
      (renamedIndex index rename >>= fun index => emitIndex index >>= fun _ => d) :=
  fun _ _ hmatches hstart hbound =>
    (settles_renamed hmatches hstart.symm rename).lockstep hstart hbound (h _)

/-- A renamed index whose text decides what follows. -/
theorem agreesFrom_renameAt_text {rename : String → Option String} {q : Option String → Patch β}
    {d : Constants → Copy γ}
    (h : ∀ cs, AgreesFrom (start + 2) indexes bound R (q (cs.utf8? index)) (d cs)) :
    AgreesFrom start (index :: indexes) bound R (renameAt start rename >>= q)
      (Attributes.constants >>= fun cs => renamedIndex index rename >>= fun index' =>
        emitIndex index' >>= fun _ => d cs) :=
  fun _ s hmatches hstart hbound => by
    rw [show (Attributes.constants >>= _) s = _ from bind_of_ok rfl]
    exact (settles_renamed hmatches hstart.symm rename).lockstep hstart hbound (h _)

/-- The last index, if it is renamed. -/
theorem agreesFrom_renameAt_last {rename : String → Option String} :
    AgreesFrom start [index] bound (fun _ _ => True) (renameAt start rename >>= fun _ => pure ())
      (renamedIndex index rename >>= emitIndex) := by
  have hlast : AgreesFrom start [index] bound (fun _ _ => True)
      (renameAt start rename >>= fun _ => pure ())
      (renamedIndex index rename >>= fun index => emitIndex index >>= fun _ => pure ()) :=
    agreesFrom_renameAt fun _ => agreesFrom_pure trivial
  simpa only [bind_pure_unit] using hlast

/-- The last index, if it is that of an appended constant. -/
theorem agreesFrom_appended_last {f : WithPool UInt16} :
    AgreesFrom start [index] bound (fun _ _ => True)
      (withPool f >>= fun index => overwrite start (bytesOfNat 2 index.toNat))
      (Attributes.withPool f >>= emitIndex) := by
  intro S s hmatches hstart hbound
  have hlast := (settles_appended hmatches hstart.symm f).lockstep (R := fun _ _ => True)
    (q := pure) (d := pure ()) hstart hbound (agreesFrom_pure trivial)
  simpa only [bind_pure, bind_pure_unit] using hlast

end Renamed

end JarRemap.Attributes.InPlace
