import JarRemap.Text.Utf8

/-!
# UTF-8 is read as it was written

Every character is read off the front of its bytes: the first byte tells how many follow and within
which bounds, and no character has bytes outside of them. The bounds leave one way to write a
character, so bytes that are read are the bytes of what they are read as. Both readers agree on
bytes that are UTF-8.
-/

namespace JarRemap.Text

theorem toNat_toUInt8 {n : Nat} (h : n < 256) : n.toUInt8.toNat = n := Nat.mod_eq_of_lt h

theorem start_of_lt {n : Nat} (h : n < 0x80) : start n.toUInt8 = some (.inl (Char.ofNat n)) := by
  have hn := toNat_toUInt8 (n := n) (by omega)
  have hlow : n.toUInt8 < 0x80 := by
    rw [UInt8.lt_iff_toNat_lt, hn]
    exact h
  rw [start, if_pos hlow, hn]

theorem start_of_le {n : Nat} (h : 0x80 ≤ n) (hn : n < 256) :
    start n.toUInt8 = (continuation? n.toUInt8).map fun (low, high, owed) =>
      .inr ⟨firstBits n.toUInt8 owed, low, high, owed⟩ := by
  have hnot : ¬ n.toUInt8 < 0x80 := by
    rw [UInt8.lt_iff_toNat_lt, toNat_toUInt8 hn]
    exact Nat.not_lt.2 h
  rw [start, if_neg hnot]

/-- A first byte of two leaves out the characters that one byte is enough for. -/
theorem start_double {k : Nat} (h : 2 ≤ k) (hk : k < 32) :
    start (0xC0 + k).toUInt8 = some (.inr ⟨k, 0x80, 0xBF, 1⟩) := by
  have hbounds : ∀ k < 32, 2 ≤ k → continuation? (0xC0 + k).toUInt8 = some (0x80, 0xBF, 1) := by
    decide +kernel
  have hbits : firstBits (0xC0 + k).toUInt8 1 = k := by
    change (0xC0 + k).toUInt8.toNat - 0xC0 = k
    rw [toNat_toUInt8 (by omega), Nat.add_sub_cancel_left]
  rw [start_of_le (by omega) (by omega), hbounds k hk h, Option.map_some]
  dsimp only
  rw [hbits]

/-- A first byte of three leaves out the characters that two bytes are enough for, and halves of
characters. -/
theorem start_triple {k : Nat} (hk : k < 16) :
    start (0xE0 + k).toUInt8 = some (.inr ⟨k, if k = 0 then 0xA0 else 0x80,
      if k = 13 then 0x9F else 0xBF, 2⟩) := by
  have hbounds : ∀ k < 16, continuation? (0xE0 + k).toUInt8 =
      some (if k = 0 then 0xA0 else 0x80, if k = 13 then 0x9F else 0xBF, 2) := by
    decide +kernel
  have hbits : firstBits (0xE0 + k).toUInt8 2 = k := by
    change (0xE0 + k).toUInt8.toNat - 0xE0 = k
    rw [toNat_toUInt8 (by omega), Nat.add_sub_cancel_left]
  rw [start_of_le (by omega) (by omega), hbounds k hk, Option.map_some]
  dsimp only
  rw [hbits]

/-- A first byte of four leaves out the characters that three bytes are enough for, and numbers
beyond all characters. -/
theorem start_quadruple {k : Nat} (hk : k < 5) :
    start (0xF0 + k).toUInt8 = some (.inr ⟨k, if k = 0 then 0x90 else 0x80,
      if k = 4 then 0x8F else 0xBF, 3⟩) := by
  have hbounds : ∀ k < 5, continuation? (0xF0 + k).toUInt8 =
      some (if k = 0 then 0x90 else 0x80, if k = 4 then 0x8F else 0xBF, 3) := by
    decide +kernel
  have hbits : firstBits (0xF0 + k).toUInt8 3 = k := by
    change (0xF0 + k).toUInt8.toNat - 0xF0 = k
    rw [toNat_toUInt8 (by omega), Nat.add_sub_cancel_left]
  rw [start_of_le (by omega) (by omega), hbounds k hk, Option.map_some]
  dsimp only
  rw [hbits]

section Reading

variable {read : List Char} {rest : List UInt8} {b low high : UInt8} {bits owed n : Nat}

theorem decodeFrom?_single {c : Char} (h : start b = some (.inl c)) :
    decodeFrom? read none (b :: rest) = decodeFrom? (c :: read) none rest := by
  rw [decodeFrom?, h]

theorem decodeFrom?_first {p : Pending} (h : start b = some (.inr p)) :
    decodeFrom? read none (b :: rest) = decodeFrom? read (some p) rest := by
  rw [decodeFrom?, h]

theorem decodeFrom?_next (hn : n < 64) (hlow : low.toNat ≤ 0x80 + n)
    (hhigh : 0x80 + n ≤ high.toNat) :
    decodeFrom? read (some ⟨bits, low, high, owed⟩) ((0x80 + n).toUInt8 :: rest) =
      if owed ≤ 1 then decodeFrom? (Char.ofNat (bits * 64 + n) :: read) none rest
      else decodeFrom? read (some ⟨bits * 64 + n, 0x80, 0xBF, owed - 1⟩) rest := by
  have hb := toNat_toUInt8 (n := 0x80 + n) (by omega)
  have hbounds : (low ≤ (0x80 + n).toUInt8 && (0x80 + n).toUInt8 ≤ high) = true := by
    rw [Bool.and_eq_true, decide_eq_true_iff, decide_eq_true_iff, UInt8.le_iff_toNat_le,
      UInt8.le_iff_toNat_le, hb]
    exact ⟨hlow, hhigh⟩
  rw [decodeFrom?, if_pos hbounds, Pending.next, hb, Nat.add_sub_cancel_left]
  by_cases howed : owed ≤ 1 <;> simp only [howed, if_true, if_false]

theorem decodeFrom?_more (howed : 1 < owed) (hn : n < 64) (hlow : low.toNat ≤ 0x80 + n)
    (hhigh : 0x80 + n ≤ high.toNat) :
    decodeFrom? read (some ⟨bits, low, high, owed⟩) ((0x80 + n).toUInt8 :: rest) =
      decodeFrom? read (some ⟨bits * 64 + n, 0x80, 0xBF, owed - 1⟩) rest := by
  rw [decodeFrom?_next hn hlow hhigh, if_neg (Nat.not_le.2 howed)]

/-- The last byte of a character has no bounds but those of all bytes behind the first. -/
theorem decodeFrom?_last (hn : n < 64) :
    decodeFrom? read (some ⟨bits, 0x80, 0xBF, 1⟩) ((0x80 + n).toUInt8 :: rest) =
      decodeFrom? (Char.ofNat (bits * 64 + n) :: read) none rest := by
  have hhigh : 0x80 + n ≤ (0xBF : UInt8).toNat := Nat.add_le_add_left (Nat.le_of_lt_succ hn) 0x80
  rw [decodeFrom?_next hn (Nat.le_add_right _ n) hhigh, if_pos (Nat.le_refl 1)]

/-- A character is read off the front of its bytes. -/
theorem decodeFrom?_encodeChar (read : List Char) (c : Char) (rest : List UInt8) :
    decodeFrom? read none (encodeChar c ++ rest) = decodeFrom? (c :: read) none rest := by
  have hvalid : c.toNat < 0xD800 ∨ 0xDFFF < c.toNat ∧ c.toNat < 0x110000 := c.valid
  have hbytes : ∀ m : Nat, m % 64 < 64 := fun m => Nat.mod_lt m (by decide)
  unfold encodeChar
  dsimp only
  split
  · next h => rw [List.singleton_append, decodeFrom?_single (start_of_lt h), Char.ofNat_toNat]
  · split
    · next h =>
      rw [List.cons_append, List.singleton_append,
        decodeFrom?_first (start_double (k := c.toNat / 64) (by omega) (by omega)),
        decodeFrom?_last (hbytes _), Nat.div_add_mod',
        Char.ofNat_toNat]
    · split
      · next h =>
        have hbits : (c.toNat / 4096 * 64 + c.toNat / 64 % 64) * 64 + c.toNat % 64 = c.toNat := by
          omega
        rw [List.cons_append, List.cons_append, List.singleton_append,
          decodeFrom?_first (start_triple (k := c.toNat / 4096) (by omega)),
          decodeFrom?_more (by decide) (hbytes _) (by split <;> simp; omega)
            (by split <;> simp <;> omega),
          decodeFrom?_last (hbytes _), hbits,
          Char.ofNat_toNat]
      · next h =>
        have hbits : ((c.toNat / 262144 * 64 + c.toNat / 4096 % 64) * 64 + c.toNat / 64 % 64) * 64 +
            c.toNat % 64 = c.toNat := by
          omega
        rw [List.cons_append, List.cons_append, List.cons_append, List.singleton_append,
          decodeFrom?_first (start_quadruple (k := c.toNat / 262144) (by omega)),
          decodeFrom?_more (by decide) (hbytes _) (by split <;> simp; omega)
            (by split <;> simp <;> omega),
          decodeFrom?_more (by decide) (hbytes _) (by simp) (by simp; omega),
          decodeFrom?_last (hbytes _), hbits,
          Char.ofNat_toNat]

end Reading

/-- Every text comes back from its bytes. -/
theorem decode?_encode (s : List Char) : decode? (encode s) = some s := by
  have hread : ∀ read : List Char, decodeFrom? read none (encode s) = some (s.reverse ++ read) := by
    induction s with
    | nil => exact fun _ => rfl
    | cons c s ih =>
      intro read
      rw [encode, List.flatMap_cons, decodeFrom?_encodeChar]
      exact (ih (c :: read)).trans (by simp)
  rw [decode?, hread, Option.map_some, List.append_nil, List.reverse_reverse]

theorem toNat_charOfNat {n : Nat} (h : n.isValidChar) : (Char.ofNat n).toNat = n := by
  rw [Char.ofNat, dif_pos h]
  rfl

/-- What a first byte tells. -/
theorem start_cases {b : UInt8} {first : Char ⊕ Pending} (h : start b = some first) :
    (b.toNat < 0x80 ∧ first = .inl (Char.ofNat b.toNat)) ∨
    (∃ k, (2 ≤ k ∧ k < 32) ∧ b = (0xC0 + k).toUInt8 ∧ first = .inr ⟨k, 0x80, 0xBF, 1⟩) ∨
    (∃ k, k < 16 ∧ b = (0xE0 + k).toUInt8 ∧
      first = .inr ⟨k, if k = 0 then 0xA0 else 0x80, if k = 13 then 0x9F else 0xBF, 2⟩) ∨
    (∃ k, k < 5 ∧ b = (0xF0 + k).toUInt8 ∧
      first = .inr ⟨k, if k = 0 then 0x90 else 0x80, if k = 4 then 0x8F else 0xBF, 3⟩) := by
  have hb : b.toNat < 256 := b.toNat_lt
  have hof : ∀ {n : Nat}, b.toNat = n → b = n.toUInt8 := fun hn => by
    rw [← hn]
    exact UInt8.ofNat_toNat.symm
  have hnone : ∀ n < 256, (0x80 ≤ n ∧ n < 0xC2) ∨ 0xF5 ≤ n → continuation? n.toUInt8 = none := by
    decide +kernel
  by_cases hsingle : b.toNat < 0x80
  · rw [hof rfl, start_of_lt hsingle, Option.some.injEq] at h
    exact .inl ⟨hsingle, h.symm⟩
  · by_cases hdouble : 0xC2 ≤ b.toNat ∧ b.toNat < 0xE0
    · have hk : b = (0xC0 + (b.toNat - 0xC0)).toUInt8 := hof (by omega)
      have hbounds : 2 ≤ b.toNat - 0xC0 ∧ b.toNat - 0xC0 < 32 := by omega
      rw [hk, start_double hbounds.1 hbounds.2, Option.some.injEq] at h
      exact .inr (.inl ⟨_, hbounds, hk, h.symm⟩)
    · by_cases htriple : 0xE0 ≤ b.toNat ∧ b.toNat < 0xF0
      · have hk : b = (0xE0 + (b.toNat - 0xE0)).toUInt8 := hof (by omega)
        have hbound : b.toNat - 0xE0 < 16 := by omega
        rw [hk, start_triple hbound, Option.some.injEq] at h
        exact .inr (.inr (.inl ⟨_, hbound, hk, h.symm⟩))
      · by_cases hquadruple : 0xF0 ≤ b.toNat ∧ b.toNat < 0xF5
        · have hk : b = (0xF0 + (b.toNat - 0xF0)).toUInt8 := hof (by omega)
          have hbound : b.toNat - 0xF0 < 5 := by omega
          rw [hk, start_quadruple hbound, Option.some.injEq] at h
          exact .inr (.inr (.inr ⟨_, hbound, hk, h.symm⟩))
        · rw [hof rfl, start_of_le (by omega) hb, hnone b.toNat hb (by omega)] at h
          cases h

/-- The byte that a begun character waits for. -/
theorem next_of_decodeFrom? {read result : List Char} {bytes : List UInt8} {p : Pending}
    (hlow : 0x80 ≤ p.low.toNat) (hhigh : p.high.toNat ≤ 0xBF)
    (h : decodeFrom? read (some p) bytes = some result) :
    ∃ n rest, bytes = (0x80 + n).toUInt8 :: rest ∧ n < 64 ∧ p.low.toNat ≤ 0x80 + n ∧
      0x80 + n ≤ p.high.toNat := by
  rcases bytes with _ | ⟨b, rest⟩
  · cases h
  · rw [decodeFrom?] at h
    split at h
    · next hbounds =>
      rw [Bool.and_eq_true, decide_eq_true_iff, decide_eq_true_iff, UInt8.le_iff_toNat_le,
        UInt8.le_iff_toNat_le] at hbounds
      have hn : 0x80 + (b.toNat - 0x80) = b.toNat := by omega
      refine ⟨b.toNat - 0x80, rest, ?_, by omega, by omega, by omega⟩
      rw [hn]
      exact congrArg (· :: rest) UInt8.ofNat_toNat.symm
    · cases h

/-- What is read off the front is a character, and its bytes. -/
theorem encodeChar_of_decodeFrom? {read result : List Char} {b : UInt8} {bytes : List UInt8}
    (h : decodeFrom? read none (b :: bytes) = some result) :
    ∃ c rest, b :: bytes = encodeChar c ++ rest ∧
      decodeFrom? (c :: read) none rest = some result := by
  have hfirst : ∃ first, start b = some first := by
    rw [decodeFrom?] at h
    rcases hstart : start b with _ | first
    · rw [hstart] at h
      cases h
    · exact ⟨first, rfl⟩
  obtain ⟨first, hstart⟩ := hfirst
  rcases start_cases hstart with
    ⟨hb, rfl⟩ | ⟨k, hk, rfl, rfl⟩ | ⟨k, hk, rfl, rfl⟩ | ⟨k, hk, rfl, rfl⟩
  · rw [decodeFrom?_single hstart] at h
    have hn : (Char.ofNat b.toNat).toNat = b.toNat := toNat_charOfNat (.inl (by omega))
    refine ⟨_, bytes, ?_, h⟩
    rw [encodeChar, hn, if_pos hb, List.singleton_append]
    exact congrArg (· :: bytes) UInt8.ofNat_toNat.symm
  · rw [decodeFrom?_first hstart] at h
    obtain ⟨n, bytes, rfl, hn, -, -⟩ := next_of_decodeFrom? (by simp) (by simp) h
    rw [decodeFrom?_last hn] at h
    have hc : (Char.ofNat (k * 64 + n)).toNat = k * 64 + n := toNat_charOfNat (.inl (by omega))
    refine ⟨_, bytes, ?_, h⟩
    rw [encodeChar, hc, if_neg (by omega), if_pos (by omega)]
    have hdiv : (k * 64 + n) / 64 = k := by omega
    have hmod : (k * 64 + n) % 64 = n := by omega
    rw [hdiv, hmod]
    rfl
  · rw [decodeFrom?_first hstart] at h
    obtain ⟨n, bytes, rfl, hn, hnlow, hnhigh⟩ := next_of_decodeFrom? (by dsimp only; split <;> simp)
      (by dsimp only; split <;> simp) h
    rw [decodeFrom?_more (by decide) hn hnlow hnhigh] at h
    obtain ⟨m, bytes, rfl, hm, -, -⟩ := next_of_decodeFrom? (by simp) (by simp) h
    rw [decodeFrom?_last hm] at h
    dsimp only at hnlow hnhigh
    -- The bounds on the second byte leave out what fits in two bytes, and halves of characters.
    have hlong : 32 ≤ k * 64 + n := by
      split at hnlow
      · exact Nat.le_trans (Nat.le_of_add_le_add_left hnlow) (Nat.le_add_left n _)
      · omega
    have hwhole : k * 64 + n < 864 ∨ 895 < k * 64 + n := by
      split at hnhigh
      · have hn : n ≤ 31 := Nat.le_of_add_le_add_left hnhigh
        omega
      · omega
    have hc : (Char.ofNat ((k * 64 + n) * 64 + m)).toNat = (k * 64 + n) * 64 + m := by
      refine toNat_charOfNat ?_
      unfold Nat.isValidChar
      omega
    refine ⟨_, bytes, ?_, h⟩
    rw [encodeChar, hc, if_neg (by omega), if_neg (by omega), if_pos (by omega)]
    have hfirst : ((k * 64 + n) * 64 + m) / 4096 = k := by omega
    have hsecond : ((k * 64 + n) * 64 + m) / 64 % 64 = n := by omega
    have hthird : ((k * 64 + n) * 64 + m) % 64 = m := by omega
    rw [hfirst, hsecond, hthird]
    rfl
  · rw [decodeFrom?_first hstart] at h
    obtain ⟨n, bytes, rfl, hn, hnlow, hnhigh⟩ := next_of_decodeFrom? (by dsimp only; split <;> simp)
      (by dsimp only; split <;> simp) h
    rw [decodeFrom?_more (by decide) hn hnlow hnhigh] at h
    obtain ⟨m, bytes, rfl, hm, hmlow, hmhigh⟩ := next_of_decodeFrom? (by simp) (by simp) h
    rw [decodeFrom?_more (by decide) hm hmlow hmhigh] at h
    obtain ⟨l, bytes, rfl, hl, -, -⟩ := next_of_decodeFrom? (by simp) (by simp) h
    rw [decodeFrom?_last hl] at h
    dsimp only at hnlow hnhigh
    -- The bounds on the second byte leave out what fits in three bytes, and what is no character.
    have hlong : 16 ≤ k * 64 + n := by
      split at hnlow
      · exact Nat.le_trans (Nat.le_of_add_le_add_left hnlow) (Nat.le_add_left n _)
      · omega
    have hsmall : k * 64 + n < 272 := by
      split at hnhigh
      · have hn : n ≤ 15 := Nat.le_of_add_le_add_left hnhigh
        omega
      · omega
    have hc : (Char.ofNat (((k * 64 + n) * 64 + m) * 64 + l)).toNat =
        ((k * 64 + n) * 64 + m) * 64 + l := by
      refine toNat_charOfNat ?_
      unfold Nat.isValidChar
      omega
    refine ⟨_, bytes, ?_, h⟩
    rw [encodeChar, hc, if_neg (by omega), if_neg (by omega), if_neg (by omega)]
    have hfirst : (((k * 64 + n) * 64 + m) * 64 + l) / 262144 = k := by omega
    have hsecond : (((k * 64 + n) * 64 + m) * 64 + l) / 4096 % 64 = n := by omega
    have hthird : (((k * 64 + n) * 64 + m) * 64 + l) / 64 % 64 = m := by omega
    have hfourth : (((k * 64 + n) * 64 + m) * 64 + l) % 64 = l := by omega
    rw [hfirst, hsecond, hthird, hfourth]
    rfl

theorem encodeChar_ne_nil (c : Char) : encodeChar c ≠ [] := by
  unfold encodeChar
  dsimp only
  split
  · exact List.cons_ne_nil _ _
  · split
    · exact List.cons_ne_nil _ _
    · split <;> exact List.cons_ne_nil _ _

theorem encode_of_decodeFrom? {read result : List Char} {bytes : List UInt8}
    (h : decodeFrom? read none bytes = some result) :
    ∃ s, result = s.reverse ++ read ∧ encode s = bytes := by
  -- Every character takes some bytes, so the bytes that are left get fewer.
  induction hsize : bytes.length using Nat.strongRecOn generalizing read bytes with
  | _ size ih =>
    rcases bytes with _ | ⟨b, bytes⟩
    · exact ⟨[], (Option.some.inj h).symm, rfl⟩
    · obtain ⟨c, rest, hbytes, hrest⟩ := encodeChar_of_decodeFrom? h
      have hfewer : rest.length < size := by
        have hchar := List.length_pos_iff.2 (encodeChar_ne_nil c)
        have hlength := congrArg List.length hbytes
        rw [List.length_append] at hlength
        omega
      obtain ⟨s, hresult, hs⟩ := ih rest.length hfewer hrest rfl
      refine ⟨c :: s, ?_, ?_⟩
      · rw [hresult, List.reverse_cons, List.append_assoc, List.singleton_append]
      · rw [encode, List.flatMap_cons, hbytes, ← hs, encode]

/-- Bytes are UTF-8 if they are the bytes of a text, which is then what they are read as. -/
theorem decode?_eq_some_iff {bytes : List UInt8} {s : List Char} :
    decode? bytes = some s ↔ bytes = encode s := by
  constructor
  · intro h
    obtain ⟨result, hread, hs⟩ := Option.map_eq_some_iff.1 h
    obtain ⟨t, hresult, ht⟩ := encode_of_decodeFrom? hread
    rw [← hs, hresult, List.append_nil, List.reverse_reverse, ht]
  · intro h
    rw [h, decode?_encode]

/-- Bytes that are UTF-8 are read as they are, with nothing put in the place of anything. -/
theorem decodeLossyFrom_eq {bytes : List UInt8} {read result : List Char} {pending : Option Pending}
    (h : decodeFrom? read pending bytes = some result) :
    decodeLossyFrom read pending bytes = result := by
  induction bytes generalizing read pending with
  | nil =>
    cases pending with
    | none => exact Option.some.inj h
    | some p => cases h
  | cons b bytes ih =>
    cases pending with
    | none =>
      rw [decodeFrom?] at h
      rw [decodeLossyFrom, startLossy]
      split at h
      · exact ih h
      · exact ih h
      · cases h
    | some p =>
      rw [decodeFrom?] at h
      rw [decodeLossyFrom]
      split at h
      · next hbounds =>
        rw [if_pos hbounds]
        split at h
        · exact ih h
        · exact ih h
      · cases h

theorem decodeLossy_encode (s : List Char) : decodeLossy (encode s) = s := by
  obtain ⟨reversed, hread, hs⟩ := Option.map_eq_some_iff.1 (decode?_encode s)
  rw [decodeLossy, decodeLossyFrom_eq hread, hs]

theorem isContinuation_of_lt : ∀ n < 0x40, isContinuation (0x80 + n).toUInt8 = true := by
  decide +kernel

theorem isContinuation_eq_false :
    ∀ n < 256, n < 0x80 ∨ 0xC0 ≤ n → isContinuation n.toUInt8 = false := by
  decide +kernel

/-- The first byte of a character, and no other one, does not continue a character. -/
theorem exists_encodeChar_eq (c : Char) :
    ∃ first others, encodeChar c = first :: others ∧ isContinuation first = false ∧
      others.length < 4 ∧ ∀ b ∈ others, isContinuation b = true := by
  have hvalid : c.toNat < 0xD800 ∨ 0xDFFF < c.toNat ∧ c.toNat < 0x110000 := c.valid
  have hlater : ∀ n, isContinuation (0x80 + n % 64).toUInt8 = true :=
    fun n => isContinuation_of_lt _ (Nat.mod_lt n (by decide))
  unfold encodeChar
  dsimp only
  split
  · exact ⟨_, [], rfl, isContinuation_eq_false _ (by omega) (by omega), by simp, by simp⟩
  · split
    · refine ⟨_, _, rfl, isContinuation_eq_false _ (by omega) (by omega), by simp, ?_⟩
      exact List.forall_mem_cons.2 ⟨hlater _, List.forall_mem_nil _⟩
    · split
      · refine ⟨_, _, rfl, isContinuation_eq_false _ (by omega) (by omega), by simp, ?_⟩
        exact List.forall_mem_cons.2 ⟨hlater _,
          List.forall_mem_cons.2 ⟨hlater _, List.forall_mem_nil _⟩⟩
      · refine ⟨_, _, rfl, isContinuation_eq_false _ (by omega) (by omega), by simp, ?_⟩
        exact List.forall_mem_cons.2 ⟨hlater _, List.forall_mem_cons.2 ⟨hlater _,
          List.forall_mem_cons.2 ⟨hlater _, List.forall_mem_nil _⟩⟩⟩

theorem encodedSize_le (c : Char) : encodedSize c ≤ 4 := by
  obtain ⟨first, others, hc, -, hlength, -⟩ := exists_encodeChar_eq c
  rw [encodedSize, hc]
  exact hlength

theorem encode_append (a b : List Char) : encode (a ++ b) = encode a ++ encode b :=
  List.flatMap_append

/-- A small first byte is the character itself. -/
theorem toNat_of_encodeChar {c : Char} {first : UInt8} {others : List UInt8}
    (h : encodeChar c = first :: others) (hfirst : first.toNat < 0x80) : c.toNat = first.toNat := by
  have hvalid : c.toNat < 0xD800 ∨ 0xDFFF < c.toNat ∧ c.toNat < 0x110000 := c.valid
  unfold encodeChar at h
  dsimp only at h
  split at h
  · rw [← (List.cons.inj h).1, toNat_toUInt8 (by omega)]
  · -- every longer form begins with a large byte
    exfalso
    split at h
    · rw [← (List.cons.inj h).1, toNat_toUInt8 (by omega)] at hfirst
      omega
    · split at h
      · rw [← (List.cons.inj h).1, toNat_toUInt8 (by omega)] at hfirst
        omega
      · rw [← (List.cons.inj h).1, toNat_toUInt8 (by omega)] at hfirst
        omega

/-- No other character has the byte of a line feed. -/
theorem eq_of_mem_encodeChar {c : Char} (h : 0x0A ∈ encodeChar c) : c = '\n' := by
  obtain ⟨first, others, hc, -, -, hothers⟩ := exists_encodeChar_eq c
  rw [hc] at h
  rcases List.mem_cons.1 h with rfl | hmem
  · rw [← Char.ofNat_toNat c, toNat_of_encodeChar hc (by decide)]
    rfl
  · exact absurd (hothers _ hmem) (by decide)

theorem lineFeed_notMem_encode {s : List Char} (h : '\n' ∉ s) : 0x0A ∉ encode s := by
  intro hbyte
  obtain ⟨c, hc, hmem⟩ := List.mem_flatMap.1 hbyte
  exact h (eq_of_mem_encodeChar hmem ▸ hc)

end JarRemap.Text
