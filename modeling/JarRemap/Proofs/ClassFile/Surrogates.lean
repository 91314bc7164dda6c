import JarRemap.Proofs.ClassFile.RoundTrip
import Mathlib.Data.List.Forall2

/-!
# Halves of characters

A text in a class file is a sequence of units, and a compiler may write a half of a character
without its other half. Units are written in one way, whatever they are, but they are read as a text
only if every half has its other half. A class file that is in order but for this is refused for its
texts, and for nothing else.
-/

namespace JarRemap

namespace Text

/-- Units in which every half of a character stands beside its other half. -/
inductive Paired : List UInt16 → Prop where
  | nil : Paired []
  | single {u : UInt16} {rest : List UInt16} (hleading : isLeading u = false)
      (htrailing : isTrailing u = false) (hrest : Paired rest) : Paired (u :: rest)
  | pair {a b : UInt16} {rest : List UInt16} (ha : isLeading a = true) (hb : isTrailing b = true)
      (hrest : Paired rest) : Paired (a :: b :: rest)

/-- A leading half has to be followed by a trailing one. -/
theorem paired_cons_of_isLeading {u : UInt16} {rest : List UInt16} (h : isLeading u = true) :
    Paired (u :: rest) ↔ ∃ v more, rest = v :: more ∧ isTrailing v = true ∧ Paired more := by
  constructor
  · intro hpaired
    cases hpaired with
    | single hleading => exact absurd h (by simp [hleading])
    | pair _ hb hrest => exact ⟨_, _, rfl, hb, hrest⟩
  · rintro ⟨v, more, rfl, hv, hmore⟩
    exact .pair h hv hmore

theorem paired_cons_of_not_isLeading {u : UInt16} {rest : List UInt16} (h : isLeading u = false) :
    Paired (u :: rest) ↔ isTrailing u = false ∧ Paired rest := by
  constructor
  · intro hpaired
    cases hpaired with
    | single _ htrailing hrest => exact ⟨htrailing, hrest⟩
    | pair ha => exact absurd ha (by simp [h])
  · rintro ⟨htrailing, hrest⟩
    exact .single h htrailing hrest

/-- The reader of units comes to their end if every half has its other half; a half that waits for
its other half belongs to the units that are left. -/
theorem isSome_ofUnitsFrom?_iff {half : Option UInt16} (hhalf : ∀ u ∈ half, isLeading u = true)
    (read : List Char) (rest : List UInt16) :
    (ofUnitsFrom? read half rest).isSome ↔ Paired (half.toList ++ rest) := by
  induction rest generalizing read half with
  | nil =>
    cases half with
    | none => simp [ofUnitsFrom?, Paired.nil]
    | some u =>
      rw [ofUnitsFrom?, Option.toList_some, List.append_nil,
        paired_cons_of_isLeading (hhalf u rfl)]
      simp
  | cons u rest ih =>
    cases half with
    | none =>
      rw [ofUnitsFrom?, Option.toList_none, List.nil_append]
      cases hleading : isLeading u with
      | true =>
        rw [if_pos rfl, ih (by simpa using hleading)]
        rfl
      | false =>
        rw [if_neg Bool.false_ne_true, paired_cons_of_not_isLeading hleading]
        cases htrailing : isTrailing u with
        | true => simp
        | false =>
          rw [if_neg Bool.false_ne_true, ih (by simp)]
          simp
    | some half =>
      rw [ofUnitsFrom?, Option.toList_some, List.singleton_append,
        paired_cons_of_isLeading (hhalf half rfl)]
      cases htrailing : isTrailing u with
      | true =>
        rw [if_pos rfl, ih (by simp)]
        simp [htrailing]
      | false => simp [htrailing]

theorem isSome_ofUnits?_iff (units : List UInt16) : (ofUnits? units).isSome ↔ Paired units := by
  rw [ofUnits?, Option.isSome_map, isSome_ofUnitsFrom?_iff (by simp)]
  rfl

/-- Units are those of the text that they are read as, if they are read. -/
theorem ofUnits?_eq_some_iff {read : List UInt16} {s : List Char} :
    ofUnits? read = some s ↔ units s = read :=
  ⟨units_of_ofUnits?, fun h => h ▸ ofUnits?_units s⟩

end Text

namespace ModifiedUtf8

/-- The bytes of units, whether they are those of a text or not. -/
def encodeUnits (units : List UInt16) : List UInt8 := units.flatMap encodeUnit

theorem encodeUnits_units (s : List Char) : encodeUnits (Text.units s) = encode s := rfl

theorem units?_encodeUnits (units : List UInt16) : units? (encodeUnits units) = some units := by
  have hread : ∀ read : List UInt16,
      unitsFrom? read none (encodeUnits units) = some (units.reverse ++ read) := by
    induction units with
    | nil => exact fun _ => rfl
    | cons u units ih =>
      intro read
      rw [encodeUnits, List.flatMap_cons, unitsFrom?_encodeUnit]
      exact (ih (u :: read)).trans (by simp)
  rw [units?, hread, Option.map_some, List.append_nil, List.reverse_reverse]

/-- The bytes of units are read as the units are. -/
theorem decode?_encodeUnits (units : List UInt16) :
    decode? (encodeUnits units) = Text.ofUnits? units := by
  rw [decode?, units?_encodeUnits, Option.bind_some]

end ModifiedUtf8

/-- A constant as it can be written: a text is any units. -/
inductive RawConstant where
  | text (units : List UInt16)
  | other (c : Constant)
deriving DecidableEq, Repr

namespace RawConstant

def toBytes : RawConstant → List UInt8
  | text units =>
      let encoded := ModifiedUtf8.encodeUnits units
      1 :: bytesOfNat 2 encoded.length ++ encoded
  | other c => c.toBytes

def slot : RawConstant → Constant.Slot
  | text _ => .plain
  | other c => c.slot

/-- A constant that can be read: its text, if it is one, is short and has no half alone. -/
def Readable : RawConstant → Prop
  | text units => Text.Paired units
  | other _ => True

/-- The constant that is read. -/
def Stands : RawConstant → Constant → Prop
  | text units, c => ∃ s, c = .utf8 (String.ofList s) ∧ Text.units s = units
  | other c, c' => c' = c

/-- A constant that has its form: texts are written as units, and short enough to be counted. -/
def Formed : RawConstant → Prop
  | text units => (ModifiedUtf8.encodeUnits units).length ≤ 65535
  | other c => ∀ text, c ≠ .utf8 text

theorem exists_stands {r : RawConstant} (h : r.Readable) : ∃ c, r.Stands c := by
  cases r with
  | text units =>
    obtain ⟨s, hs⟩ := Option.isSome_iff_exists.1 ((Text.isSome_ofUnits?_iff units).2 h)
    exact ⟨_, s, rfl, Text.units_of_ofUnits? hs⟩
  | other c => exact ⟨c, rfl⟩

theorem Stands.toBytes_eq {r : RawConstant} {c : Constant} (h : r.Stands c) :
    c.toBytes = r.toBytes := by
  cases r with
  | text units =>
    obtain ⟨s, rfl, rfl⟩ := h
    rw [Constant.toBytes, toBytes, ModifiedUtf8.encodeUnits_units, String.toList_ofList]
  | other d =>
    obtain rfl : c = d := h
    rfl

theorem Stands.slot_eq {r : RawConstant} {c : Constant} (h : r.Stands c) : c.slot = r.slot := by
  cases r with
  | text units =>
    obtain ⟨s, rfl, -⟩ := h
    rfl
  | other d =>
    obtain rfl : c = d := h
    rfl

theorem Stands.short {r : RawConstant} {c : Constant} (h : r.Stands c) (hformed : r.Formed) :
    c.Short := by
  rintro text rfl
  cases r with
  | text units =>
    obtain ⟨s, hs, rfl⟩ := h
    obtain rfl : text = String.ofList s := Constant.utf8.inj hs
    rwa [String.toList_ofList, ← ModifiedUtf8.encodeUnits_units]
  | other d =>
    obtain rfl : Constant.utf8 text = d := h
    exact absurd rfl (hformed text)

variable {raws : List RawConstant} {constants : List Constant}

theorem exists_forall₂_stands (h : ∀ r ∈ raws, r.Readable) :
    ∃ constants, List.Forall₂ Stands raws constants := by
  induction raws with
  | nil => exact ⟨[], .nil⟩
  | cons first rest ih =>
    obtain ⟨hfirst, hrest⟩ := List.forall_mem_cons.1 h
    obtain ⟨c, hc⟩ := exists_stands hfirst
    obtain ⟨constants, hconstants⟩ := ih hrest
    exact ⟨c :: constants, .cons hc hconstants⟩

theorem flatMap_toBytes_eq (h : List.Forall₂ Stands raws constants) :
    constants.flatMap Constant.toBytes = raws.flatMap toBytes := by
  induction h with
  | nil => rfl
  | cons hc _ ih => rw [List.flatMap_cons, List.flatMap_cons, hc.toBytes_eq, ih]

theorem map_slot_eq (h : List.Forall₂ Stands raws constants) :
    constants.map Constant.slot = raws.map slot := by
  induction h with
  | nil => rfl
  | cons hc _ ih => rw [List.map_cons, List.map_cons, hc.slot_eq, ih]

theorem short_of_formed (h : List.Forall₂ Stands raws constants) (hformed : ∀ r ∈ raws, r.Formed) :
    ∀ c ∈ constants, c.Short := by
  induction h with
  | nil => exact fun _ hc => absurd hc List.not_mem_nil
  | cons hc _ ih =>
    obtain ⟨hfirst, hrest⟩ := List.forall_mem_cons.1 hformed
    exact List.forall_mem_cons.2 ⟨hc.short hfirst, ih hrest⟩

end RawConstant

namespace Decoder

variable {α β : Type} {d : Decoder α}

/-- A decoder refuses bytes for a reason, whatever stands behind them. -/
def Refuses (d : Decoder α) (bytes : List UInt8) (e : ClassFault) : Prop :=
  ∀ rest offset, d ⟨bytes ++ rest, offset⟩ = .error e

theorem Refuses.bind {f : α → Decoder β} {bytes : List UInt8} {e : ClassFault}
    (hd : Refuses d bytes e) : Refuses (d >>= f) bytes e := by
  intro rest offset
  change (d ⟨bytes ++ rest, offset⟩ >>= fun p => f p.1 p.2) = _
  rw [hd rest offset]
  rfl

theorem Refuses.append {bytes : List UInt8} {e : ClassFault} (hd : Refuses d bytes e)
    (more : List UInt8) : Refuses d (bytes ++ more) e := by
  intro rest offset
  rw [List.append_assoc]
  exact hd (more ++ rest) offset

theorem Reads.refuses {f : α → Decoder β} {bytes more : List UInt8} {a : α} {e : ClassFault}
    (hd : Reads d bytes a) (hf : Refuses (f a) more e) : Refuses (d >>= f) (bytes ++ more) e := by
  intro rest offset
  change (d ⟨bytes ++ more ++ rest, offset⟩ >>= fun p => f p.1 p.2) = _
  rw [List.append_assoc, hd (more ++ rest) offset]
  exact hf rest _

/-- What was read is refused. -/
theorem Reads.refuses_read {f : α → Decoder β} {bytes : List UInt8} {a : α} {e : ClassFault}
    (hd : Reads d bytes a) (hf : Refuses (f a) [] e) : Refuses (d >>= f) bytes e := by
  have hmore := hd.refuses hf
  rwa [List.append_nil] at hmore

/-- A constant that can be read is read. -/
theorem reads_raw {r : RawConstant} {c : Constant} (hslot : r.slot ≠ .unusable)
    (hformed : r.Formed) (h : r.Stands c) : Reads constant r.toBytes c := by
  rw [← h.toBytes_eq]
  refine reads_constant ?_ (h.short hformed)
  rintro rfl
  exact hslot (h.slot_eq.symm.trans (Constant.slot_eq_unusable.2 rfl))

/-- A text with a half alone is refused. -/
theorem refuses_text {units : List UInt16}
    (hshort : (ModifiedUtf8.encodeUnits units).length ≤ 65535) (h : ¬ Text.Paired units) :
    Refuses constant (RawConstant.text units).toBytes .invalidText := by
  have hnone : ModifiedUtf8.decode? (ModifiedUtf8.encodeUnits units) = none := by
    rw [ModifiedUtf8.decode?_encodeUnits, ← Option.not_isSome_iff_eq_none,
      Text.isSome_ofUnits?_iff]
    exact h
  have htext : Refuses text (bytesOfNat 2 (ModifiedUtf8.encodeUnits units).length ++
      ModifiedUtf8.encodeUnits units) .invalidText := by
    refine (reads_short_of_nat (by omega)).refuses ?_
    have hlength : (ModifiedUtf8.encodeUnits units).length.toUInt16.toNat =
        (ModifiedUtf8.encodeUnits units).length := Nat.mod_eq_of_lt (by omega)
    rw [hlength]
    refine (reads_take (ModifiedUtf8.encodeUnits units)).refuses_read fun rest offset => ?_
    rw [hnone]
    rfl
  exact (reads_byte 1).refuses htext.bind

/-- Constants are refused for the first text that has a half alone. -/
theorem refuses_constants {l : List RawConstant} (hslots : Slotted (l.map RawConstant.slot))
    (hformed : ∀ r ∈ l, r.Formed) (hbad : ∃ r ∈ l, ¬ r.Readable) :
    Refuses (constants l.length) (l.flatMap RawConstant.toBytes) .invalidText := by
  generalize hkinds : l.map RawConstant.slot = slots at hslots
  induction hslots generalizing l with
  | nil =>
    obtain ⟨r, hr, -⟩ := hbad
    rw [List.map_eq_nil_iff.1 hkinds] at hr
    cases hr
  | plain _ ih =>
    obtain ⟨r, rest, rfl, hslot, hrest⟩ := List.map_eq_cons_iff.1 hkinds
    obtain ⟨hr, hothers⟩ := List.forall_mem_cons.1 hformed
    rw [List.length_cons, List.flatMap_cons, constants]
    by_cases hreadable : r.Readable
    · obtain ⟨c, hc⟩ := RawConstant.exists_stands hreadable
      obtain ⟨bad, hbad, hnot⟩ := hbad
      have hlater : bad ∈ rest := by
        rcases List.mem_cons.1 hbad with rfl | hlater
        · exact absurd hreadable hnot
        · exact hlater
      have hone := (Constant.slot_eq_plain.1 (hc.slot_eq.trans hslot)).1
      refine (reads_raw (by simp [hslot]) hr hc).refuses ?_
      rw [hone, if_neg Bool.false_ne_true]
      exact (ih hothers ⟨bad, hlater, hnot⟩ hrest).bind
    · cases r with
      | text units => exact ((refuses_text hr hreadable).append _).bind
      | other c => exact absurd trivial hreadable
  | wide _ ih =>
    obtain ⟨r, behind, rfl, hslot, hbehind⟩ := List.map_eq_cons_iff.1 hkinds
    obtain ⟨second, rest, rfl, hsecond, hrest⟩ := List.map_eq_cons_iff.1 hbehind
    obtain ⟨hr, hformed⟩ := List.forall_mem_cons.1 hformed
    have hothers := (List.forall_mem_cons.1 hformed).2
    -- neither a wide constant nor the slot behind it is a text
    cases r with
    | text units => cases hslot
    | other c =>
      cases second with
      | text units => cases hsecond
      | other c' =>
        obtain rfl : c' = .unusable := Constant.slot_eq_unusable.1 hsecond
        obtain ⟨bad, hbad, hnot⟩ := hbad
        have hlater : bad ∈ rest := by
          rcases List.mem_cons.1 hbad with rfl | hbad
          · exact absurd trivial hnot
          · rcases List.mem_cons.1 hbad with rfl | hlater
            · exact absurd trivial hnot
            · exact hlater
        rw [List.length_cons, List.length_cons, List.flatMap_cons, constants]
        refine (reads_raw (by simp [hslot]) hr rfl).refuses ?_
        rw [Constant.slot_eq_wide.1 hslot, if_pos rfl]
        exact (ih hothers ⟨bad, hlater, hnot⟩ hrest).bind

end Decoder

/-- A class file as it can be written. Its constants are given apart from the rest, by their slots
behind the first one. -/
structure RawClass where
  constants : List RawConstant
  rest : ClassFile

namespace RawClass

/-- All slots of the pool. -/
def pool (r : RawClass) : List RawConstant := .other .unusable :: r.constants

/-- The class file with constants in the place of those that are written. -/
def withConstants (r : RawClass) (constants : List Constant) : ClassFile :=
  { r.rest with constants := (Constant.unusable :: constants).toArray }

def toBytes (r : RawClass) : List UInt8 :=
  let c := r.rest
  bytesOfNat 4 classMagic ++ bytesOfNat 2 c.minor.toNat ++ bytesOfNat 2 c.major.toNat ++
    bytesOfNat 2 r.pool.length ++ r.constants.flatMap RawConstant.toBytes ++
    bytesOfNat 2 c.access.toNat ++ bytesOfNat 2 c.thisClass.toNat ++
    bytesOfNat 2 c.superClass.toNat ++ bytesOfNat 2 c.interfaces.length ++
    c.interfaces.flatMap Constant.shortBytes ++ Member.tableBytes c.fields ++
    Member.tableBytes c.methods ++ c.attributes

/-- A class file that is in order, whatever the units of its texts are. -/
structure WellFormed (r : RawClass) : Prop where
  slots : Slotted (r.constants.map RawConstant.slot)
  formed : ∀ c ∈ r.constants, c.Formed
  size : r.pool.length ≤ 65535
  interfaces : r.rest.interfaces.length ≤ 65535
  fields : r.rest.fields.length ≤ 65535
  methods : r.rest.methods.length ≤ 65535
  tables : ∀ m ∈ r.rest.fields ++ r.rest.methods, IsAttributeTable m.attributes
  table : IsAttributeTable r.rest.attributes
  named : ∃ name units, r.pool[r.rest.thisClass.toNat]? = some (.other (.classRef name)) ∧
    r.pool[name.toNat]? = some (.text units)

variable {r : RawClass}

theorem toBytes_withConstants {constants : List Constant}
    (h : List.Forall₂ RawConstant.Stands r.constants constants) :
    (r.withConstants constants).toBytes = r.toBytes := by
  have hbytes := RawConstant.flatMap_toBytes_eq h
  have hlength : (r.withConstants constants).constants.size = r.pool.length := by
    simp [withConstants, pool, h.length_eq]
  have htail : (r.withConstants constants).constants.toList.tail = constants := rfl
  rw [ClassFile.toBytes, hlength, htail, hbytes]
  rfl

/-- What stands at an index of the pool that is read. -/
theorem getElem?_withConstants {constants : List Constant}
    (h : List.Forall₂ RawConstant.Stands r.constants constants) {i : Nat} {raw : RawConstant}
    (hraw : r.pool[i]? = some raw) :
    ∃ c, (r.withConstants constants).constants[i]? = some c ∧ raw.Stands c := by
  have hpool : List.Forall₂ RawConstant.Stands r.pool (.unusable :: constants) := .cons rfl h
  obtain ⟨hlength, hstands⟩ := List.forall₂_iff_get.1 hpool
  obtain ⟨hi, rfl⟩ := List.getElem?_eq_some_iff.1 hraw
  refine ⟨(Constant.unusable :: constants).get ⟨i, hlength ▸ hi⟩, ?_, hstands i hi (hlength ▸ hi)⟩
  rw [← Array.getElem?_toList]
  exact List.getElem?_eq_getElem _

theorem wellFormed_withConstants {constants : List Constant} (hr : r.WellFormed)
    (h : List.Forall₂ RawConstant.Stands r.constants constants) :
    (r.withConstants constants).WellFormed := by
  have hslots := RawConstant.map_slot_eq h
  obtain ⟨name, units, hthis, hname⟩ := hr.named
  obtain ⟨c, hc, rfl⟩ := getElem?_withConstants h hthis
  obtain ⟨_, htext, s, rfl, -⟩ := getElem?_withConstants h hname
  have hnamed : (r.withConstants constants).constants.className? r.rest.thisClass =
      some (String.ofList s) := by
    rw [Constants.className?, Constants.at?, hc]
    dsimp only
    rw [Constants.utf8?, Constants.at?, htext]
  refine ⟨⟨?_, ?_, hr.interfaces, hr.fields, hr.methods, ?_⟩, hr.tables, hr.table⟩
  · exact ⟨constants, rfl, hslots ▸ hr.slots⟩
  · have hsize := hr.size
    simpa [withConstants, pool, h.length_eq] using hsize
  · exact Option.isSome_iff_exists.2 ⟨_, hnamed⟩

/-- A class file whose texts have no half alone is read, with the texts that have their units. -/
theorem parse_of_readable (hr : r.WellFormed) (h : ∀ c ∈ r.constants, c.Readable) :
    ∃ c, ClassFile.parse r.toBytes = .ok c ∧
      ∀ (i : Nat) (raw : RawConstant), r.pool[i]? = some raw →
        ∃ constant, c.constants[i]? = some constant ∧ raw.Stands constant := by
  obtain ⟨constants, hconstants⟩ := RawConstant.exists_forall₂_stands h
  refine ⟨r.withConstants constants, ?_, fun i raw => getElem?_withConstants hconstants⟩
  rw [← toBytes_withConstants hconstants]
  refine ClassFile.parse_toBytes (wellFormed_withConstants hr hconstants) ?_
  exact List.forall_mem_cons.2
    ⟨fun _ => nofun, RawConstant.short_of_formed hconstants hr.formed⟩

/-- A class file with a half alone in a text is refused for it. -/
theorem parse_of_not_readable (hr : r.WellFormed) (h : ∃ c ∈ r.constants, ¬ c.Readable) :
    ClassFile.parse r.toBytes = .error .invalidText := by
  have hsize : r.constants.length + 1 ≤ 65535 := hr.size
  have hcount : (r.constants.length + 1).toUInt16.toNat = r.constants.length + 1 :=
    Nat.mod_eq_of_lt (by omega)
  have hpool : Decoder.Refuses Decoder.pool (bytesOfNat 2 r.pool.length ++
      r.constants.flatMap RawConstant.toBytes) .invalidText := by
    refine (Decoder.reads_short_of_nat (n := r.constants.length + 1) (by omega)).refuses ?_
    rw [hcount]
    exact (Decoder.refuses_constants hr.slots hr.formed h).bind
  have hmagic : Decoder.Reads Decoder.word (bytesOfNat 4 classMagic) classMagic.toUInt32 :=
    Decoder.reads_word_of_nat (by decide)
  have hfile : Decoder.Refuses Decoder.classFile r.toBytes .invalidText := by
    rw [toBytes]
    simp only [List.append_assoc]
    refine hmagic.refuses ?_
    rw [if_neg (by decide)]
    refine (Decoder.reads_short r.rest.minor).refuses ?_
    refine (Decoder.reads_short r.rest.major).refuses ?_
    rw [← List.append_assoc]
    exact (hpool.append _).bind
  have hrun := hfile [] 0
  rw [List.append_nil] at hrun
  rw [ClassFile.parse, hrun]

end RawClass

/-- A class file that is in order is refused for its texts if and only if one of them has half of a
character alone; else it is read. Units are read from their bytes if and only if every half of a
character among them has its other half, and as the text that has these units. -/
theorem legal_texts_are_read_iff {r : RawClass} (hr : r.WellFormed) :
    (ClassFile.parse r.toBytes = .error .invalidText ↔
      ∃ units, .text units ∈ r.constants ∧ ¬ Text.Paired units) ∧
    ((∀ units, .text units ∈ r.constants → Text.Paired units) →
      ∃ c, ClassFile.parse r.toBytes = .ok c ∧
        ∀ (i : Nat) (raw : RawConstant), r.pool[i]? = some raw →
          ∃ constant, c.constants[i]? = some constant ∧ raw.Stands constant) ∧
    (∀ units, (ModifiedUtf8.decode? (ModifiedUtf8.encodeUnits units)).isSome ↔
      Text.Paired units) ∧
    ∀ units s, ModifiedUtf8.decode? (ModifiedUtf8.encodeUnits units) = some s ↔
      Text.units s = units := by
  have hread : (∀ units, .text units ∈ r.constants → Text.Paired units) →
      ∃ c, ClassFile.parse r.toBytes = .ok c ∧
        ∀ (i : Nat) (raw : RawConstant), r.pool[i]? = some raw →
          ∃ constant, c.constants[i]? = some constant ∧ raw.Stands constant := by
    intro h
    refine RawClass.parse_of_readable hr fun c hc => ?_
    cases c with
    | text units => exact h units hc
    | other c => trivial
  refine ⟨⟨fun hrefused => ?_, ?_⟩, hread, fun units => ?_, fun units s => ?_⟩
  · by_contra hnone
    have hpaired : ∀ units, .text units ∈ r.constants → Text.Paired units := by
      intro units hunits
      by_contra hnot
      exact hnone ⟨units, hunits, hnot⟩
    obtain ⟨c, hc, -⟩ := hread hpaired
    cases hrefused.symm.trans hc
  · rintro ⟨units, hunits, hnot⟩
    exact RawClass.parse_of_not_readable hr ⟨_, hunits, hnot⟩
  · rw [ModifiedUtf8.decode?_encodeUnits, Text.isSome_ofUnits?_iff]
  · rw [ModifiedUtf8.decode?_encodeUnits, Text.ofUnits?_eq_some_iff]

/-- A class `a` with a string that is the leading half of a character alone. -/
def halfClass : RawClass where
  constants := [.text [0x61], .other (.classRef 1), .text [0xD83D], .other (.string 3)]
  rest := ⟨0, 52, #[], 0x21, 2, 0, [], [], [], [0, 0]⟩

theorem wellFormed_halfClass : halfClass.WellFormed where
  slots := .plain (.plain (.plain (.plain .nil)))
  formed := by
    simp only [halfClass, List.forall_mem_cons, List.not_mem_nil, false_implies, implies_true,
      and_true]
    refine ⟨?_, fun _ => nofun, ?_, fun _ => nofun⟩
    all_goals
      rw [RawConstant.Formed]
      decide
  size := by decide
  interfaces := by decide
  fields := by decide
  methods := by decide
  tables := by simp [halfClass]
  table := ⟨[0, 0], [], rfl, rfl, rfl, by simp⟩
  named := ⟨1, [0x61], rfl, rfl⟩

theorem not_paired_half : ¬ Text.Paired [0xD83D] := by
  rw [← Text.isSome_ofUnits?_iff]
  decide

theorem legal_texts_are_read_iff_halfClass : halfClass.WellFormed ∧
    ClassFile.parse halfClass.toBytes = .error .invalidText := by
  refine ⟨wellFormed_halfClass, (legal_texts_are_read_iff wellFormed_halfClass).1.2 ?_⟩
  exact ⟨[0xD83D], by decide, not_paired_half⟩

/-- A unit is written as the format has it, and the class is in order, but neither is read. -/
theorem half_alone_is_refused :
    ModifiedUtf8.encodeUnits [0xD83D] = [0xED, 0xA0, 0xBD] ∧
      ModifiedUtf8.decode? [0xED, 0xA0, 0xBD] = none ∧ halfClass.WellFormed ∧
      ClassFile.parse halfClass.toBytes = .error .invalidText :=
  ⟨by decide, by decide, wellFormed_halfClass, by decide +kernel⟩

end JarRemap
