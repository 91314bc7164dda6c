import JarRemap.ClassFile.ModifiedUtf8
import JarRemap.Proofs.Text.Utf8
import Mathlib.Data.List.Chain

/-!
# Text in class files

What is written of a text is read as the text: every unit by its bytes, and every character by its
units. Both readers keep what they have read and what they wait for, so each law is about a reader
that waits for nothing and has the written form of one more unit, or character, before it. Units can
be read in one way only: the units that a text was read from are its units.
-/

namespace JarRemap

namespace Text

theorem toNat_toUInt16 {n : Nat} (h : n < 65536) : n.toUInt16.toNat = n := Nat.mod_eq_of_lt h

theorem isLeading_iff (u : UInt16) :
    isLeading u = true ↔ 0xD800 ≤ u.toNat ∧ u.toNat ≤ 0xDBFF := by
  simp [isLeading, UInt16.le_iff_toNat_le]

theorem isTrailing_iff (u : UInt16) :
    isTrailing u = true ↔ 0xDC00 ≤ u.toNat ∧ u.toNat ≤ 0xDFFF := by
  simp [isTrailing, UInt16.le_iff_toNat_le]

/-- A character is read off the front of units. -/
theorem ofUnitsFrom?_unitsOfChar (read : List Char) (c : Char) (rest : List UInt16) :
    ofUnitsFrom? read none (unitsOfChar c ++ rest) = ofUnitsFrom? (c :: read) none rest := by
  have hvalid : c.toNat < 0xD800 ∨ 0xDFFF < c.toNat ∧ c.toNat < 0x110000 := c.valid
  unfold unitsOfChar
  dsimp only
  split
  · next h =>
    have hn : c.toNat.toUInt16.toNat = c.toNat := toNat_toUInt16 h
    have hleading : ¬ isLeading c.toNat.toUInt16 = true := by
      rw [isLeading_iff, hn]
      omega
    have htrailing : ¬ isTrailing c.toNat.toUInt16 = true := by
      rw [isTrailing_iff, hn]
      omega
    rw [List.singleton_append, ofUnitsFrom?, if_neg hleading, if_neg htrailing, hn,
      Char.ofNat_toNat]
  · next h =>
    have hn := toNat_toUInt16 (n := 0xD800 + (c.toNat - 0x10000) / 0x400) (by omega)
    have hm := toNat_toUInt16 (n := 0xDC00 + (c.toNat - 0x10000) % 0x400) (by omega)
    have hleading : isLeading (0xD800 + (c.toNat - 0x10000) / 0x400).toUInt16 = true := by
      rw [isLeading_iff, hn]
      omega
    have htrailing : isTrailing (0xDC00 + (c.toNat - 0x10000) % 0x400).toUInt16 = true := by
      rw [isTrailing_iff, hm]
      omega
    have hjoined : joinUnits (0xD800 + (c.toNat - 0x10000) / 0x400).toUInt16
        (0xDC00 + (c.toNat - 0x10000) % 0x400).toUInt16 = c := by
      have hsum : 0x10000 + (c.toNat - 0x10000) / 0x400 * 0x400 + (c.toNat - 0x10000) % 0x400 =
          c.toNat := by omega
      rw [joinUnits, hn, hm, Nat.add_sub_cancel_left, Nat.add_sub_cancel_left, hsum,
        Char.ofNat_toNat]
    rw [List.cons_append, List.singleton_append, ofUnitsFrom?, if_pos hleading, ofUnitsFrom?,
      if_pos htrailing, hjoined]

theorem ofUnits?_units (s : List Char) : ofUnits? (units s) = some s := by
  have hread : ∀ read : List Char,
      ofUnitsFrom? read none (units s) = some (s.reverse ++ read) := by
    induction s with
    | nil => exact fun _ => rfl
    | cons c s ih =>
      intro read
      rw [units, List.flatMap_cons, ofUnitsFrom?_unitsOfChar]
      exact (ih (c :: read)).trans (by simp)
  rw [ofUnits?, hread, Option.map_some, List.append_nil, List.reverse_reverse]

theorem unitsOfChar_ofNat {u : UInt16} (hleading : ¬ isLeading u = true)
    (htrailing : ¬ isTrailing u = true) : unitsOfChar (Char.ofNat u.toNat) = [u] := by
  have hu : u.toNat < 65536 := u.toNat_lt
  rw [isLeading_iff] at hleading
  rw [isTrailing_iff] at htrailing
  have hvalid : u.toNat.isValidChar := by
    unfold Nat.isValidChar
    omega
  unfold unitsOfChar
  rw [toNat_charOfNat hvalid]
  dsimp only
  rw [if_pos hu, Nat.toUInt16, UInt16.ofNat_toNat]

theorem unitsOfChar_joinUnits {a b : UInt16} (ha : isLeading a = true) (hb : isTrailing b = true) :
    unitsOfChar (joinUnits a b) = [a, b] := by
  rw [isLeading_iff] at ha
  rw [isTrailing_iff] at hb
  have hvalid : (0x10000 + (a.toNat - 0xD800) * 0x400 + (b.toNat - 0xDC00)).isValidChar := by
    unfold Nat.isValidChar
    omega
  unfold unitsOfChar joinUnits
  rw [toNat_charOfNat hvalid]
  dsimp only
  rw [if_neg (by omega)]
  have hhigh : 0xD800 + (0x10000 + (a.toNat - 0xD800) * 0x400 + (b.toNat - 0xDC00) - 0x10000) / 0x400 =
      a.toNat := by omega
  have hlow : 0xDC00 + (0x10000 + (a.toNat - 0xD800) * 0x400 + (b.toNat - 0xDC00) - 0x10000) % 0x400 =
      b.toNat := by omega
  have hback : ∀ u : UInt16, u.toNat.toUInt16 = u := fun _ => UInt16.ofNat_toNat
  rw [hhigh, hlow, hback, hback]

theorem units_reverse_cons (c : Char) (s : List Char) :
    units (c :: s).reverse = units s.reverse ++ unitsOfChar c := by
  rw [List.reverse_cons, units, units, List.flatMap_append, List.flatMap_singleton]

/-- The units that a text was read from are its units. -/
theorem units_of_ofUnitsFrom? {read s : List Char} {half : Option UInt16} {rest : List UInt16}
    (hhalf : ∀ u ∈ half, isLeading u = true) (h : ofUnitsFrom? read half rest = some s) :
    units s.reverse = units read.reverse ++ half.toList ++ rest := by
  induction rest generalizing read half with
  | nil =>
    cases half with
    | none =>
      cases h
      simp
    | some u => cases h
  | cons u rest ih =>
    cases half with
    | none =>
      rw [ofUnitsFrom?] at h
      by_cases hleading : isLeading u = true
      · rw [if_pos hleading] at h
        simpa using ih (by simpa using hleading) h
      · rw [if_neg hleading] at h
        by_cases htrailing : isTrailing u = true
        · rw [if_pos htrailing] at h
          cases h
        · rw [if_neg htrailing] at h
          rw [ih (by simp) h, units_reverse_cons, unitsOfChar_ofNat hleading htrailing]
          simp
    | some half =>
      rw [ofUnitsFrom?] at h
      by_cases htrailing : isTrailing u = true
      · rw [if_pos htrailing] at h
        rw [ih (by simp) h, units_reverse_cons, unitsOfChar_joinUnits (hhalf half rfl) htrailing]
        simp
      · rw [if_neg htrailing] at h
        cases h

theorem units_of_ofUnits? {s : List Char} {read : List UInt16} (h : ofUnits? read = some s) :
    units s = read := by
  obtain ⟨reversed, hreversed, rfl⟩ := Option.map_eq_some_iff.1 h
  rw [units_of_ofUnitsFrom? (by simp) hreversed]
  rfl

end Text

namespace ModifiedUtf8

theorem toNat_toUInt8 {n : Nat} (h : n < 256) : n.toUInt8.toNat = n := Nat.mod_eq_of_lt h

theorem start?_single {n : Nat} (h : 0x01 ≤ n ∧ n ≤ 0x7F) :
    start? n.toUInt8 = some (.inl n.toUInt16) := by
  rw [start?, toNat_toUInt8 (by omega), if_pos h]

theorem start?_double {n : Nat} (h : n ≤ 0x1F) :
    start? (0xC0 + n).toUInt8 = some (.inr ⟨n, 1⟩) := by
  rw [start?, toNat_toUInt8 (by omega), if_neg (by omega), if_pos (by omega), Nat.add_sub_cancel_left]

theorem start?_triple {n : Nat} (h : n ≤ 0xF) :
    start? (0xE0 + n).toUInt8 = some (.inr ⟨n, 2⟩) := by
  rw [start?, toNat_toUInt8 (by omega), if_neg (by omega), if_neg (by omega), if_pos (by omega),
    Nat.add_sub_cancel_left]

theorem continuation?_eq {n : Nat} (h : n < 0x40) :
    continuation? (0x80 + n).toUInt8 = some n := by
  have hn := toNat_toUInt8 (n := 0x80 + n) (by omega)
  have hbounds : 0x80 ≤ (0x80 + n).toUInt8 ∧ (0x80 + n).toUInt8 ≤ 0xBF := by
    rw [UInt8.le_iff_toNat_le, UInt8.le_iff_toNat_le, hn]
    change 128 ≤ 128 + n ∧ 128 + n ≤ 191
    omega
  rw [continuation?, if_pos hbounds, hn, Nat.add_sub_cancel_left]

theorem unitsFrom?_last {read : List UInt16} (pending : Option Pending) {b : UInt8} {u : UInt16}
    (h : pending.elim (start? b) (·.next? b) = some (.inl u)) (rest : List UInt8) :
    unitsFrom? read pending (b :: rest) = unitsFrom? (u :: read) none rest := by
  cases pending <;> rw [unitsFrom?, h]

theorem unitsFrom?_more {read : List UInt16} (pending : Option Pending) {b : UInt8} {p : Pending}
    (h : pending.elim (start? b) (·.next? b) = some (.inr p)) (rest : List UInt8) :
    unitsFrom? read pending (b :: rest) = unitsFrom? read (some p) rest := by
  cases pending <;> rw [unitsFrom?, h]

theorem next?_last {n payload : Nat} (h : payload < 0x40) :
    Pending.next? ⟨n, 1⟩ (0x80 + payload).toUInt8 = some (.inl (n * 64 + payload).toUInt16) := by
  rw [Pending.next?, continuation?_eq h]
  rfl

theorem next?_more {n payload : Nat} (h : payload < 0x40) :
    Pending.next? ⟨n, 2⟩ (0x80 + payload).toUInt8 = some (.inr ⟨n * 64 + payload, 1⟩) := by
  rw [Pending.next?, continuation?_eq h]
  rfl

/-- A unit is read off the front of bytes. -/
theorem unitsFrom?_encodeUnit (read : List UInt16) (u : UInt16) (rest : List UInt8) :
    unitsFrom? read none (encodeUnit u ++ rest) = unitsFrom? (u :: read) none rest := by
  have hu : u.toNat < 65536 := u.toNat_lt
  have hback : u.toNat.toUInt16 = u := UInt16.ofNat_toNat
  unfold encodeUnit
  dsimp only
  split
  · next h =>
    rw [List.singleton_append, unitsFrom?_last none (start?_single h), hback]
  · split
    · next h =>
      have hbits : u.toNat / 64 * 64 + u.toNat % 64 = u.toNat := Nat.div_add_mod' _ _
      rw [List.cons_append, List.singleton_append,
        unitsFrom?_more none (start?_double (n := u.toNat / 64) (by omega)),
        unitsFrom?_last (some _) (next?_last (Nat.mod_lt _ (by decide))), hbits, hback]
    · next h =>
      have hbits : (u.toNat / 4096 * 64 + u.toNat / 64 % 64) * 64 + u.toNat % 64 = u.toNat := by
        omega
      rw [List.cons_append, List.cons_append, List.singleton_append,
        unitsFrom?_more none (start?_triple (n := u.toNat / 4096) (by omega)),
        unitsFrom?_more (some _) (next?_more (Nat.mod_lt _ (by decide))),
        unitsFrom?_last (some _) (next?_last (Nat.mod_lt _ (by decide))), hbits, hback]

theorem units?_encode (s : List Char) :
    units? (encode s) = some (Text.units s) := by
  have hread : ∀ (units : List UInt16) (read : List UInt16),
      unitsFrom? read none (units.flatMap encodeUnit) = some (units.reverse ++ read) := by
    intro units
    induction units with
    | nil => exact fun _ => rfl
    | cons u units ih =>
      intro read
      rw [List.flatMap_cons, unitsFrom?_encodeUnit, ih]
      simp
  rw [units?, encode, hread, Option.map_some, List.append_nil, List.reverse_reverse]

/-- Every text comes back from its bytes. -/
theorem decode?_encode (s : List Char) : decode? (encode s) = some s := by
  rw [decode?, units?_encode, Option.bind_some, Text.ofUnits?_units]

end ModifiedUtf8

end JarRemap

/-!
## Shortest forms of texts

Bytes spell units one behind the other, each in one, two or three bytes. A unit that is spelled in
more bytes than it needs shows it in its first two bytes, and no other two bytes look like that. So
bytes without such a pair, and only they, are what is written of the text they are read as.
-/

namespace JarRemap.ModifiedUtf8

/-- Whether two bytes begin a unit in more bytes than it needs: one below 128 in two bytes, other
than the null character, or one below 2048 in three. -/
def beginsOverlong (a b : UInt8) : Bool :=
  (a == 0xC0 && b != 0x80) || a == 0xC1 || (a == 0xE0 && b < 0xA0)

/-- Bytes in which no unit takes more bytes than it needs. -/
def Shortest (bytes : List UInt8) : Prop := bytes.IsChain fun a b => beginsOverlong a b = false

instance (bytes : List UInt8) : Decidable (Shortest bytes) :=
  inferInstanceAs (Decidable (bytes.IsChain _))

/-- The ways to spell a unit, overlong ones included. -/
inductive SpellsUnit : List UInt8 → UInt16 → Prop where
  | single {n : Nat} (low : 0x01 ≤ n) (high : n ≤ 0x7F) : SpellsUnit [n.toUInt8] n.toUInt16
  | double {a b : Nat} (ha : a < 0x20) (hb : b < 0x40) :
      SpellsUnit [(0xC0 + a).toUInt8, (0x80 + b).toUInt8] (a * 64 + b).toUInt16
  | triple {a b c : Nat} (ha : a < 0x10) (hb : b < 0x40) (hc : c < 0x40) :
      SpellsUnit [(0xE0 + a).toUInt8, (0x80 + b).toUInt8, (0x80 + c).toUInt8]
        ((a * 64 + b) * 64 + c).toUInt16

/-- Bytes that spell units one behind the other. -/
inductive Spells : List UInt8 → List UInt16 → Prop where
  | nil : Spells [] []
  | cons {bytes rest : List UInt8} {u : UInt16} {units : List UInt16} :
      SpellsUnit bytes u → Spells rest units → Spells (bytes ++ rest) (u :: units)

/-- The bytes that were taken of a unit that is being read, if one is. -/
inductive Begun : Option Pending → List UInt8 → Prop where
  | none : Begun none []
  | double {a : Nat} (ha : a < 0x20) : Begun (some ⟨a, 1⟩) [(0xC0 + a).toUInt8]
  | triple {a : Nat} (ha : a < 0x10) : Begun (some ⟨a, 2⟩) [(0xE0 + a).toUInt8]
  | last {a b : Nat} (ha : a < 0x10) (hb : b < 0x40) :
      Begun (some ⟨a * 64 + b, 1⟩) [(0xE0 + a).toUInt8, (0x80 + b).toUInt8]

theorem continuation?_eq_some {b : UInt8} {payload : Nat} (h : continuation? b = some payload) :
    payload < 0x40 ∧ b = (0x80 + payload).toUInt8 := by
  unfold continuation? at h
  split at h
  · next hbounds =>
    have hpayload := Option.some.inj h
    simp only [UInt8.le_iff_toNat_le, UInt8.reduceToNat] at hbounds
    refine ⟨by omega, UInt8.toNat_inj.1 ?_⟩
    rw [toNat_toUInt8 (by omega)]
    omega
  · cases h

/-- One more byte ends the unit that is being read, or goes on with it. -/
theorem begun_byte {pending : Option Pending} {taken : List UInt8} (hpending : Begun pending taken)
    {b : UInt8} {r : UInt16 ⊕ Pending} (h : pending.elim (start? b) (·.next? b) = some r) :
    (∃ u, r = .inl u ∧ SpellsUnit (taken ++ [b]) u) ∨
      ∃ p, r = .inr p ∧ Begun (some p) (taken ++ [b]) := by
  have hback : ∀ {n : Nat}, b.toNat = n → b = n.toUInt8 := by
    rintro n rfl
    exact UInt8.ofNat_toNat.symm
  cases hpending with
  | none =>
    rw [Option.elim_none, start?] at h
    split at h
    · next hsingle =>
      cases h
      refine .inl ⟨_, rfl, ?_⟩
      have hform := SpellsUnit.single hsingle.1 hsingle.2
      rwa [← hback rfl] at hform
    · split at h
      · cases h
        refine .inr ⟨_, rfl, ?_⟩
        have hform := Begun.double (a := b.toNat - 0xC0) (by omega)
        rwa [← hback (by omega)] at hform
      · split at h
        · cases h
          refine .inr ⟨_, rfl, ?_⟩
          have hform := Begun.triple (a := b.toNat - 0xE0) (by omega)
          rwa [← hback (by omega)] at hform
        · cases h
  | double ha =>
    obtain ⟨payload, hpayload, rfl⟩ := Option.map_eq_some_iff.1 h
    obtain ⟨hlow, rfl⟩ := continuation?_eq_some hpayload
    exact .inl ⟨_, rfl, .double ha hlow⟩
  | triple ha =>
    obtain ⟨payload, hpayload, rfl⟩ := Option.map_eq_some_iff.1 h
    obtain ⟨hlow, rfl⟩ := continuation?_eq_some hpayload
    exact .inr ⟨_, rfl, .last ha hlow⟩
  | last ha hb =>
    obtain ⟨payload, hpayload, rfl⟩ := Option.map_eq_some_iff.1 h
    obtain ⟨hlow, rfl⟩ := continuation?_eq_some hpayload
    exact .inl ⟨_, rfl, .triple ha hb hlow⟩

/-- Bytes that are read as units spell them. -/
theorem spells_of_unitsFrom? {bytes taken : List UInt8} {pending : Option Pending}
    {read result : List UInt16} (hpending : Begun pending taken)
    (h : unitsFrom? read pending bytes = some result) :
    ∃ units, result = units.reverse ++ read ∧ Spells (taken ++ bytes) units := by
  induction bytes generalizing read pending taken with
  | nil =>
    cases hpending with
    | none =>
      cases h
      exact ⟨[], rfl, .nil⟩
    | double | triple | last => cases h
  | cons b bytes ih =>
    have hsplit : taken ++ b :: bytes = taken ++ [b] ++ bytes := by simp
    cases hr : pending.elim (start? b) (·.next? b) with
    | none => cases pending <;> rw [unitsFrom?, hr] at h <;> cases h
    | some r =>
      rw [hsplit]
      rcases begun_byte hpending hr with ⟨u, rfl, hu⟩ | ⟨p, rfl, hp⟩
      · rw [unitsFrom?_last pending hr] at h
        obtain ⟨units, rfl, hunits⟩ := ih .none h
        exact ⟨u :: units, by simp, .cons hu hunits⟩
      · rw [unitsFrom?_more pending hr] at h
        exact ih hp h

theorem spells_of_decode? {bytes : List UInt8} {s : List Char} (h : decode? bytes = some s) :
    Spells bytes (Text.units s) := by
  obtain ⟨units, hunits, hs⟩ := Option.bind_eq_some_iff.1 h
  obtain ⟨reversed, hreversed, rfl⟩ := Option.map_eq_some_iff.1 hunits
  obtain ⟨spelled, rfl, hspelled⟩ := spells_of_unitsFrom? .none hreversed
  rw [Text.units_of_ofUnits? hs]
  simpa using hspelled

/-- A written unit is spelled by its bytes. -/
theorem spellsUnit_encodeUnit (u : UInt16) : SpellsUnit (encodeUnit u) u := by
  have hu : u.toNat < 65536 := u.toNat_lt
  have hback : u.toNat.toUInt16 = u := UInt16.ofNat_toNat
  unfold encodeUnit
  dsimp only
  split
  · next h =>
    have hform := SpellsUnit.single h.1 h.2
    rwa [hback] at hform
  · split
    · next h =>
      have hform := SpellsUnit.double (a := u.toNat / 64) (b := u.toNat % 64) (by omega) (by omega)
      rwa [Nat.div_add_mod', hback] at hform
    · next h =>
      have hform := SpellsUnit.triple (a := u.toNat / 4096) (b := u.toNat / 64 % 64)
        (c := u.toNat % 64) (by omega) (by omega) (by omega)
      have hbits : (u.toNat / 4096 * 64 + u.toNat / 64 % 64) * 64 + u.toNat % 64 = u.toNat := by
        omega
      rwa [hbits, hback] at hform

theorem beginsOverlong_of_lt {n : Nat} (h : n < 0xC0) (b : UInt8) :
    beginsOverlong n.toUInt8 b = false := by
  have hn := toNat_toUInt8 (n := n) (by omega)
  have hne : ∀ lead : UInt8, 0xC0 ≤ lead.toNat → n.toUInt8 ≠ lead := by
    rintro lead hlead rfl
    omega
  simp [beginsOverlong, hne]

/-- Whether units are spelled in their shortest forms is told of each unit. -/
theorem shortest_append {bytes rest : List UInt8} {u : UInt16} (h : SpellsUnit bytes u) :
    Shortest (bytes ++ rest) ↔ Shortest bytes ∧ Shortest rest := by
  have hlast : ∀ a ∈ bytes.getLast?, ∀ b ∈ rest.head?, beginsOverlong a b = false := by
    intro a ha b _
    cases h with
    | single low high =>
      cases ha
      exact beginsOverlong_of_lt (by omega) b
    | double _ hb =>
      cases ha
      exact beginsOverlong_of_lt (by omega) b
    | triple _ _ hc =>
      cases ha
      exact beginsOverlong_of_lt (by omega) b
  rw [Shortest, List.isChain_append]
  exact ⟨fun hchain => ⟨hchain.1, hchain.2.1⟩, fun hboth => ⟨hboth.1, hboth.2, hlast⟩⟩

theorem shortest_single (a : UInt8) : Shortest [a] := List.isChain_singleton a

/-- A unit below 128 is overlong in two bytes, but for the null character. -/
theorem shortest_double {a b : Nat} (ha : a < 0x20) (hb : b < 0x40) :
    Shortest [(0xC0 + a).toUInt8, (0x80 + b).toUInt8] ↔ 0x80 ≤ a * 64 + b ∨ a * 64 + b = 0 := by
  have hlead := toNat_toUInt8 (n := 0xC0 + a) (by omega)
  have hnext := toNat_toUInt8 (n := 0x80 + b) (by omega)
  rw [Shortest, List.isChain_pair, beginsOverlong]
  simp only [Bool.or_eq_false_iff, Bool.and_eq_false_iff, beq_eq_false_iff_ne, bne_eq_false_iff_eq,
    decide_eq_false_iff_not, ne_eq, ← UInt8.toNat_inj, UInt8.lt_iff_toNat_lt, hlead, hnext,
    UInt8.reduceToNat]
  omega

/-- A unit below 2048 is overlong in three bytes. -/
theorem shortest_triple {a b c : Nat} (ha : a < 0x10) (hb : b < 0x40) :
    Shortest [(0xE0 + a).toUInt8, (0x80 + b).toUInt8, (0x80 + c).toUInt8] ↔
      0x20 ≤ a * 64 + b := by
  have hlead := toNat_toUInt8 (n := 0xE0 + a) (by omega)
  have hnext := toNat_toUInt8 (n := 0x80 + b) (by omega)
  rw [Shortest, List.isChain_cons_cons, List.isChain_pair,
    beginsOverlong_of_lt (show 0x80 + b < 0xC0 by omega), beginsOverlong]
  simp only [Bool.or_eq_false_iff, Bool.and_eq_false_iff, beq_eq_false_iff_ne, bne_eq_false_iff_eq,
    decide_eq_false_iff_not, ne_eq, ← UInt8.toNat_inj, UInt8.lt_iff_toNat_lt, hlead, hnext,
    UInt8.reduceToNat, and_true]
  omega

/-- A unit is written in the one of its forms that is shortest. -/
theorem encodeUnit_eq_iff {bytes : List UInt8} {u : UInt16} (h : SpellsUnit bytes u) :
    encodeUnit u = bytes ↔ Shortest bytes := by
  have hwritten : ∀ n : Nat, n < 65536 → n.toUInt16.toNat = n := fun _ => Nat.mod_eq_of_lt
  cases h with
  | @single n low high =>
    have hn := hwritten n (by omega)
    have hsame : encodeUnit n.toUInt16 = [n.toUInt8] := by
      rw [encodeUnit, hn, if_pos ⟨low, high⟩]
    exact iff_of_true hsame (shortest_single _)
  | @double a b ha hb =>
    have hn := hwritten (a * 64 + b) (by omega)
    have hhigh : (a * 64 + b) / 64 = a := by omega
    have hlow : (a * 64 + b) % 64 = b := by omega
    rw [shortest_double ha hb, encodeUnit, hn]
    split
    · exact iff_of_false (by simp) (by omega)
    · rw [if_pos (by omega), hhigh, hlow]
      exact iff_of_true rfl (by omega)
  | @triple a b c ha hb hc =>
    have hn := hwritten ((a * 64 + b) * 64 + c) (by omega)
    have hhigh : ((a * 64 + b) * 64 + c) / 4096 = a := by omega
    have hmiddle : ((a * 64 + b) * 64 + c) / 64 % 64 = b := by omega
    have hlow : ((a * 64 + b) * 64 + c) % 64 = c := by omega
    rw [shortest_triple ha hb, encodeUnit, hn]
    split
    · exact iff_of_false (by simp) (by omega)
    · split
      · exact iff_of_false (by simp) (by omega)
      · rw [hhigh, hmiddle, hlow]
        exact iff_of_true rfl (by omega)

/-- Units are written in their shortest forms. -/
theorem shortest_flatMap_encodeUnit (units : List UInt16) :
    Shortest (units.flatMap encodeUnit) := by
  induction units with
  | nil => exact List.isChain_nil
  | cons u units ih =>
    have hform := spellsUnit_encodeUnit u
    rw [List.flatMap_cons]
    exact (shortest_append hform).2 ⟨(encodeUnit_eq_iff hform).1 rfl, ih⟩

theorem flatMap_encodeUnit_of_shortest {bytes : List UInt8} {units : List UInt16}
    (h : Spells bytes units) (hshortest : Shortest bytes) : units.flatMap encodeUnit = bytes := by
  induction h with
  | nil => rfl
  | cons hform _ ih =>
    obtain ⟨hfirst, hrest⟩ := (shortest_append hform).1 hshortest
    rw [List.flatMap_cons, (encodeUnit_eq_iff hform).2 hfirst, ih hrest]

/-- A text that was read is written as it was read if and only if it was read from its shortest
form. -/
theorem encode_eq_iff {bytes : List UInt8} {s : List Char} (h : decode? bytes = some s) :
    encode s = bytes ↔ Shortest bytes := by
  constructor
  · rintro rfl
    exact shortest_flatMap_encodeUnit (Text.units s)
  · exact flatMap_encodeUnit_of_shortest (spells_of_decode? h)

end JarRemap.ModifiedUtf8
