import JarRemap.Proofs.ClassFile.Lengths

/-!
# Texts in class files, bit by bit

The bytes of a unit are its bits in groups of six, each group under a mark. Packing units with masks
and shifts is what `encode` does by division, and unpacking bytes by the pattern of each first byte
is what `decode?` does with the bytes that are owed; a text of single bytes can be taken as it is.
Reading undoes writing, no written byte is zero or as high as the first byte of a character of four
bytes in UTF-8, and no form of a text is shorter than the one that is written.
-/

namespace JarRemap.ModifiedUtf8

/-- The bytes of a unit, its bits under their marks. -/
def packUnit (u : UInt16) : List UInt8 :=
  if 0x0001 ≤ u ∧ u ≤ 0x007F then [u.toUInt8]
  else
    let low : UInt8 := 0x80 ||| (u &&& 0x3F).toUInt8
    if u ≤ 0x07FF then [(0xC0 : UInt8) ||| (u >>> 6).toUInt8, low]
    else
      [(0xE0 : UInt8) ||| (u >>> 12).toUInt8, (0x80 : UInt8) ||| ((u >>> 6) &&& 0x3F).toUInt8, low]

/-- The bits of a byte that continues a unit. -/
def payload? (b : UInt8) : Option UInt16 :=
  if b &&& 0xC0 = 0x80 then some (b &&& 0x3F).toUInt16 else none

/-- The units of bytes, each read by the pattern of its first byte. -/
def unpack? : List UInt8 → Option (List UInt16)
  | [] => some []
  | first :: rest =>
      if 0x01 ≤ first ∧ first ≤ 0x7F then (unpack? rest).map (first.toUInt16 :: ·)
      else if 0xC0 ≤ first ∧ first ≤ 0xDF then
        match rest with
        | [] => none
        | b :: rest =>
            (payload? b).bind fun low =>
              (unpack? rest).map (((first &&& 0x1F).toUInt16 <<< 6 ||| low) :: ·)
      else if 0xE0 ≤ first ∧ first ≤ 0xEF then
        match rest with
        | [] => none
        | [_] => none
        | b :: c :: rest =>
            (payload? b).bind fun middle => (payload? c).bind fun low =>
              (unpack? rest).map
                (((first &&& 0x0F).toUInt16 <<< 12 ||| middle <<< 6 ||| low) :: ·)
      else none

/-- Whether a byte is a unit by itself. -/
def isSingle (b : UInt8) : Bool := b != 0 && b < 0x80

/-- The text of bytes, which is taken as it is if every byte is a unit by itself. -/
def unpackText? (bytes : List UInt8) : Option (List Char) :=
  if bytes.all isSingle then some (bytes.map fun b => Char.ofNat b.toNat)
  else (unpack? bytes).bind Text.ofUnits?

/-- What holds of the bytes of all small numbers holds of all bytes. -/
theorem forall_byte {P : UInt8 → Prop} (h : ∀ n < 256, P n.toUInt8) (b : UInt8) : P b := by
  have hb := h b.toNat b.toNat_lt
  rwa [show b.toNat.toUInt8 = b from UInt8.ofNat_toNat] at hb

/-- A mark and what is put under it do not overlap. -/
theorem or_double : ∀ n < 0x20, (0xC0 : UInt8) ||| n.toUInt8 = (0xC0 + n).toUInt8 := by
  decide +kernel

theorem or_triple : ∀ n < 0x10, (0xE0 : UInt8) ||| n.toUInt8 = (0xE0 + n).toUInt8 := by
  decide +kernel

theorem or_continuation : ∀ n < 0x40, (0x80 : UInt8) ||| n.toUInt8 = (0x80 + n).toUInt8 := by
  decide +kernel

theorem toUInt8_eq (u : UInt16) : u.toUInt8 = u.toNat.toUInt8 := rfl

theorem toNat_shiftRight_six (u : UInt16) : (u >>> 6).toNat = u.toNat / 64 := by
  rw [UInt16.toNat_shiftRight]
  exact Nat.shiftRight_eq_div_pow u.toNat 6

theorem toNat_shiftRight_twelve (u : UInt16) : (u >>> 12).toNat = u.toNat / 4096 := by
  rw [UInt16.toNat_shiftRight]
  exact Nat.shiftRight_eq_div_pow u.toNat 12

theorem toNat_and_mask (u : UInt16) : (u &&& 0x3F).toNat = u.toNat % 64 := by
  rw [UInt16.toNat_and]
  exact Nat.and_two_pow_sub_one_eq_mod u.toNat 6

/-- Packing a unit is writing it. -/
theorem packUnit_eq (u : UInt16) : packUnit u = encodeUnit u := by
  have hu : u.toNat < 65536 := u.toNat_lt
  simp only [packUnit, encodeUnit, UInt16.le_iff_toNat_le, toUInt8_eq, toNat_shiftRight_six,
    toNat_shiftRight_twelve, toNat_and_mask, UInt16.reduceToNat]
  rw [or_continuation (u.toNat % 64) (Nat.mod_lt _ (by decide)),
    or_continuation (u.toNat / 64 % 64) (Nat.mod_lt _ (by decide)),
    or_triple (u.toNat / 4096) (by omega)]
  split
  · rfl
  · split
    · next h => rw [or_double (u.toNat / 64) (by omega)]
    · rfl

/-- What continues a unit bears the mark. -/
theorem payload?_eq : ∀ b : UInt8, payload? b = (continuation? b).map Nat.toUInt16 :=
  forall_byte (by decide +kernel)

/-- Bits that stand apart are put together by adding. -/
theorem or_toUInt16 {low k : Nat} (h : low < 2 ^ k) (high : Nat) :
    (high * 2 ^ k).toUInt16 ||| low.toUInt16 = (high * 2 ^ k + low).toUInt16 := by
  have hor := Nat.two_pow_add_eq_or_of_lt h high
  rw [Nat.mul_comm] at hor
  exact ((congrArg UInt16.ofNat hor).trans (UInt16.ofNat_or _ _)).symm

theorem toUInt16_shiftLeft_six (n : Nat) : n.toUInt16 <<< 6 = (n * 2 ^ 6).toUInt16 := by
  rw [← Nat.shiftLeft_eq]
  exact (UInt16.ofNat_shiftLeft n 6 (by decide)).symm

theorem toUInt16_shiftLeft_twelve (n : Nat) : n.toUInt16 <<< 12 = (n * 2 ^ 12).toUInt16 := by
  rw [← Nat.shiftLeft_eq]
  exact (UInt16.ofNat_shiftLeft n 12 (by decide)).symm

/-- The bits under the mark of a first byte. -/
theorem mask_double : ∀ b : UInt8, 0xC0 ≤ b ∧ b ≤ 0xDF →
    (b &&& 0x1F).toUInt16 = (b.toNat - 0xC0).toUInt16 :=
  forall_byte (by decide +kernel)

theorem mask_triple : ∀ b : UInt8, 0xE0 ≤ b ∧ b ≤ 0xEF →
    (b &&& 0x0F).toUInt16 = (b.toNat - 0xE0).toUInt16 :=
  forall_byte (by decide +kernel)

/-- Two groups of bits side by side. -/
theorem join_double {first low : Nat} (hlow : low < 0x40) :
    first.toUInt16 <<< 6 ||| low.toUInt16 = (first * 64 + low).toUInt16 := by
  rw [toUInt16_shiftLeft_six]
  exact or_toUInt16 hlow first

/-- Three groups of bits side by side. -/
theorem join_triple {first middle low : Nat} (hmiddle : middle < 0x40) (hlow : low < 0x40) :
    first.toUInt16 <<< 12 ||| middle.toUInt16 <<< 6 ||| low.toUInt16 =
      ((first * 64 + middle) * 64 + low).toUInt16 := by
  have hmiddle' : middle * 2 ^ 6 < 2 ^ 12 := by omega
  have hupper : first * 2 ^ 12 + middle * 2 ^ 6 = (first * 64 + middle) * 2 ^ 6 := by omega
  rw [toUInt16_shiftLeft_twelve, toUInt16_shiftLeft_six, or_toUInt16 hmiddle', hupper]
  exact or_toUInt16 hlow _

section Unpacking

variable {read : List UInt16} {rest : List UInt8} {b : UInt8}

/-- What a first byte tells by its pattern. -/
theorem start?_eq (b : UInt8) :
    start? b =
      if 0x01 ≤ b ∧ b ≤ 0x7F then some (.inl b.toUInt16)
      else if 0xC0 ≤ b ∧ b ≤ 0xDF then some (.inr ⟨b.toNat - 0xC0, 1⟩)
      else if 0xE0 ≤ b ∧ b ≤ 0xEF then some (.inr ⟨b.toNat - 0xE0, 2⟩)
      else none := by
  have hsingle : b.toUInt16 = b.toNat.toUInt16 := (UInt16.ofNat_uInt8ToNat b).symm
  simp only [start?, hsingle, UInt8.le_iff_toNat_le, UInt8.reduceToNat]

theorem unitsFrom?_low (bits : Nat) :
    unitsFrom? read (some ⟨bits, 1⟩) (b :: rest) =
      (continuation? b).bind fun low =>
        unitsFrom? ((bits * 64 + low).toUInt16 :: read) none rest := by
  rw [unitsFrom?, Option.elim_some, Pending.next?]
  cases continuation? b <;> rfl

theorem unitsFrom?_middle (bits : Nat) :
    unitsFrom? read (some ⟨bits, 2⟩) (b :: rest) =
      (continuation? b).bind fun middle =>
        unitsFrom? read (some ⟨bits * 64 + middle, 1⟩) rest := by
  rw [unitsFrom?, Option.elim_some, Pending.next?]
  cases continuation? b <;> rfl

end Unpacking

/-- Unpacking bytes is reading them. -/
theorem unitsFrom?_eq (read : List UInt16) (bytes : List UInt8) :
    unitsFrom? read none bytes = (unpack? bytes).map fun units => units.reverse ++ read := by
  -- the cases are the patterns of the first byte, and whether the bytes it asks for are there
  fun_induction unpack? bytes generalizing read with
  | case1 => rfl
  | case2 first rest hsingle ih =>
    rw [unitsFrom?, Option.elim_none, start?_eq, if_pos hsingle, Option.map_map]
    exact (ih _).trans (by simp [Function.comp_def])
  | case3 first hsingle hdouble =>
    rw [unitsFrom?, Option.elim_none, start?_eq, if_neg hsingle, if_pos hdouble]
    rfl
  | case4 first hsingle hdouble b rest ih =>
    rw [unitsFrom?, Option.elim_none, start?_eq, if_neg hsingle, if_pos hdouble]
    refine (unitsFrom?_low _).trans ?_
    rw [payload?_eq, mask_double first hdouble]
    cases hb : continuation? b with
    | none => rfl
    | some low =>
      have hlow := (continuation?_eq_some hb).1
      simp [ih, join_double hlow, Function.comp_def]
  | case5 first hsingle hdouble htriple =>
    rw [unitsFrom?, Option.elim_none, start?_eq, if_neg hsingle, if_neg hdouble, if_pos htriple]
    rfl
  | case6 first hsingle hdouble htriple b =>
    rw [unitsFrom?, Option.elim_none, start?_eq, if_neg hsingle, if_neg hdouble, if_pos htriple]
    refine (unitsFrom?_middle _).trans ?_
    cases continuation? b <;> rfl
  | case7 first hsingle hdouble htriple b c rest ih =>
    rw [unitsFrom?, Option.elim_none, start?_eq, if_neg hsingle, if_neg hdouble, if_pos htriple]
    refine (unitsFrom?_middle _).trans ?_
    rw [payload?_eq, payload?_eq, mask_triple first htriple]
    cases hb : continuation? b with
    | none => rfl
    | some middle =>
      refine (unitsFrom?_low _).trans ?_
      cases hc : continuation? c with
      | none => rfl
      | some low =>
        have hmiddle := (continuation?_eq_some hb).1
        have hlow := (continuation?_eq_some hc).1
        simp [ih, join_triple hmiddle hlow, Function.comp_def]
  | case8 first rest hsingle hdouble htriple =>
    rw [unitsFrom?, Option.elim_none, start?_eq, if_neg hsingle, if_neg hdouble, if_neg htriple]
    rfl

theorem unpack?_eq (bytes : List UInt8) : unpack? bytes = units? bytes := by
  simp [units?, unitsFrom?_eq]

/-- A byte that is a unit by itself is the form of the character it stands for. -/
theorem flatMap_encodeUnit_of_isSingle : ∀ b : UInt8, isSingle b = true →
    (Text.unitsOfChar (Char.ofNat b.toNat)).flatMap encodeUnit = [b] :=
  forall_byte (by decide +kernel)

theorem encode_of_isSingle {bytes : List UInt8} (h : bytes.all isSingle = true) :
    encode (bytes.map fun b => Char.ofNat b.toNat) = bytes := by
  induction bytes with
  | nil => rfl
  | cons b bytes ih =>
    rw [List.all_cons, Bool.and_eq_true] at h
    rw [List.map_cons, encode, Text.units, List.flatMap_cons, List.flatMap_append,
      flatMap_encodeUnit_of_isSingle b h.1]
    exact congrArg (b :: ·) (ih h.2)

/-- Unpacking a text is reading it, also where the text is taken as it is. -/
theorem unpackText?_eq (bytes : List UInt8) : unpackText? bytes = decode? bytes := by
  unfold unpackText?
  split
  · next h =>
    have hread := decode?_encode (bytes.map fun b => Char.ofNat b.toNat)
    rw [encode_of_isSingle h] at hread
    exact hread.symm
  · rw [unpack?_eq, decode?]

theorem packed_eq (s : List Char) : (Text.units s).flatMap packUnit = encode s := by
  rw [encode, funext packUnit_eq]

/-- No byte of a unit is zero, and none could begin a character of four bytes. -/
theorem mem_encodeUnit {u : UInt16} {b : UInt8} (h : b ∈ encodeUnit u) : b ≠ 0 ∧ b < 0xF0 := by
  have hu : u.toNat < 65536 := u.toNat_lt
  have hbyte : ∀ n, 0 < n → n < 0xF0 → n.toUInt8 ≠ 0 ∧ n.toUInt8 < 0xF0 := by
    intro n hpos hlt
    have hn := toNat_toUInt8 (n := n) (by omega)
    rw [UInt8.lt_iff_toNat_lt, ne_eq, ← UInt8.toNat_inj, hn]
    exact ⟨Nat.ne_of_gt hpos, hlt⟩
  unfold encodeUnit at h
  dsimp only at h
  split at h
  · next hsingle =>
    rw [List.mem_singleton.1 h]
    exact hbyte _ (by omega) (by omega)
  · split at h
    · simp only [List.mem_cons, List.not_mem_nil, or_false] at h
      rcases h with rfl | rfl
      · exact hbyte _ (by omega) (by omega)
      · exact hbyte _ (by omega) (by omega)
    · simp only [List.mem_cons, List.not_mem_nil, or_false] at h
      rcases h with rfl | rfl | rfl
      · exact hbyte _ (by omega) (by omega)
      · exact hbyte _ (by omega) (by omega)
      · exact hbyte _ (by omega) (by omega)

/-- Every text comes back from its bytes, of which none is zero or as high as `0xF0`. What is read
from any bytes is written in no more bytes than it was read from, and comes back from these. Packing
the units of a text bit by bit gives the same bytes, and unpacking gives the same text. -/
theorem encode_invertible :
    (∀ s : List Char, decode? (encode s) = some s ∧ ∀ b ∈ encode s, b ≠ 0 ∧ b < 0xF0) ∧
    (∀ (bytes : List UInt8) (s : List Char), decode? bytes = some s →
      (encode s).length ≤ bytes.length ∧ decode? (encode s) = some s) ∧
    (∀ s : List Char, (Text.units s).flatMap packUnit = encode s) ∧
    ∀ bytes : List UInt8, unpackText? bytes = decode? bytes := by
  refine ⟨fun s => ⟨decode?_encode s, fun b hb => ?_⟩, fun bytes s h => ?_, packed_eq,
    unpackText?_eq⟩
  · obtain ⟨u, -, hu⟩ := List.mem_flatMap.1 hb
    exact mem_encodeUnit hu
  · exact ⟨length_encode_of_decode? h, decode?_encode s⟩

/-- A text of which one character is written in three bytes too many. -/
theorem encode_invertible_overlong :
    decode? [0x61, 0xE0, 0x81, 0x81, 0xC0, 0x80] = some ['a', 'A', '\x00'] ∧
      (encode ['a', 'A', '\x00']).length ≤ 6 ∧
      decode? (encode ['a', 'A', '\x00']) = some ['a', 'A', '\x00'] := by
  have hread : decode? [0x61, 0xE0, 0x81, 0x81, 0xC0, 0x80] = some ['a', 'A', '\x00'] := by decide
  exact ⟨hread, encode_invertible.2.1 _ _ hread⟩

end JarRemap.ModifiedUtf8
