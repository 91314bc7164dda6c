import JarRemap.ClassFile.Codec
import Mathlib.Tactic.Ring
import JarRemap.Proofs.ClassFile.Text

/-!
# Writing and reading class files

Decoders undo writers, first part by part and then for a whole file.
-/

/-!
## What a decoder reads

A decoder reads bytes as a value if it gives the value wherever the bytes stand in front, and takes
no more than them. Decoders that run one after the other read one text behind the other, so that a
writer is undone by a decoder part by part.
-/

namespace JarRemap

theorem bytesOfNat_succ (count n : Nat) :
    bytesOfNat (count + 1) n = (n / 256 ^ count).toUInt8 :: bytesOfNat count n := rfl

@[simp] theorem length_bytesOfNat (count n : Nat) : (bytesOfNat count n).length = count := by
  induction count with
  | zero => rfl
  | succ count ih => rw [bytesOfNat, List.length_cons, ih]

theorem natOfBytes_cons (b : UInt8) (bytes : List UInt8) :
    natOfBytes (b :: bytes) = b.toNat * 256 ^ bytes.length + natOfBytes bytes := by
  have hfold : ∀ (bytes : List UInt8) (n : Nat),
      bytes.foldl (fun n b => n * 256 + b.toNat) n =
        n * 256 ^ bytes.length + natOfBytes bytes := by
    intro bytes
    induction bytes with
    | nil =>
      intro n
      simp [natOfBytes]
    | cons b bytes ih =>
      intro n
      rw [natOfBytes, List.foldl_cons, List.foldl_cons, ih, ih, List.length_cons, pow_succ]
      ring
  rw [natOfBytes, List.foldl_cons, hfold]
  ring

theorem natOfBytes_lt (bytes : List UInt8) : natOfBytes bytes < 256 ^ bytes.length := by
  induction bytes with
  | nil => simp [natOfBytes]
  | cons b bytes ih =>
    have hb : b.toNat + 1 ≤ 256 := b.toNat_lt
    rw [natOfBytes_cons, List.length_cons, pow_succ]
    calc b.toNat * 256 ^ bytes.length + natOfBytes bytes
        < b.toNat * 256 ^ bytes.length + 256 ^ bytes.length := Nat.add_lt_add_left ih _
      _ = 256 ^ bytes.length * (b.toNat + 1) := by ring
      _ ≤ 256 ^ bytes.length * 256 := Nat.mul_le_mul_left _ hb

/-- A number that fits comes back from its bytes. -/
theorem natOfBytes_bytesOfNat {count n : Nat} (h : n < 256 ^ count) :
    natOfBytes (bytesOfNat count n) = n := by
  have hmod : ∀ count, natOfBytes (bytesOfNat count n) = n % 256 ^ count := by
    intro count
    induction count with
    | zero => simp [bytesOfNat, natOfBytes, Nat.mod_one]
    | succ count ih =>
      rw [bytesOfNat_succ, natOfBytes_cons, length_bytesOfNat, ih, Nat.mod_pow_succ]
      change n / 256 ^ count % 256 * _ + _ = _
      ring
  rw [hmod, Nat.mod_eq_of_lt h]

theorem bytesOfNat_mul_add (count a n : Nat) :
    bytesOfNat count (a * 256 ^ count + n) = bytesOfNat count n := by
  induction count generalizing a with
  | zero => rfl
  | succ count ih =>
    have hsplit : a * 256 ^ (count + 1) + n = a * 256 * 256 ^ count + n := by ring
    have hhead : (a * 256 * 256 ^ count + n) / 256 ^ count = n / 256 ^ count + a * 256 := by
      rw [add_comm, Nat.add_mul_div_right _ _ (Nat.pow_pos (by decide))]
    have hbyte : (n / 256 ^ count + a * 256).toUInt8 = (n / 256 ^ count).toUInt8 := by
      refine UInt8.toNat_inj.1 ?_
      change (n / 256 ^ count + a * 256) % 256 = n / 256 ^ count % 256
      omega
    rw [bytesOfNat_succ, bytesOfNat_succ, hsplit, hhead, hbyte, ih]

/-- The bytes of a number are those of its high part and of its low part. -/
theorem bytesOfNat_add (high low n : Nat) :
    bytesOfNat (high + low) n =
      bytesOfNat high (n / 256 ^ low) ++ bytesOfNat low (n % 256 ^ low) := by
  have hlow : bytesOfNat low (n % 256 ^ low) = bytesOfNat low n := by
    rw [← bytesOfNat_mul_add low (n / 256 ^ low), Nat.div_add_mod']
  induction high with
  | zero => rw [Nat.zero_add, hlow, bytesOfNat, List.nil_append]
  | succ high ih =>
    have hdiv : n / 256 ^ (high + low) = n / 256 ^ low / 256 ^ high := by
      rw [Nat.div_div_eq_div_mul, ← Nat.pow_add, Nat.add_comm]
    rw [Nat.add_right_comm, bytesOfNat_succ, bytesOfNat_succ, hdiv, ih, List.cons_append]

/-- Bytes come back from their number. -/
theorem bytesOfNat_natOfBytes (bytes : List UInt8) :
    bytesOfNat bytes.length (natOfBytes bytes) = bytes := by
  induction bytes with
  | nil => rfl
  | cons b bytes ih =>
    have hbyte : (b.toNat * 256 ^ bytes.length + natOfBytes bytes) / 256 ^ bytes.length =
        b.toNat := by
      rw [add_comm, Nat.add_mul_div_right _ _ (Nat.pow_pos (by decide)),
        Nat.div_eq_of_lt (natOfBytes_lt bytes), Nat.zero_add]
    rw [natOfBytes_cons, List.length_cons, bytesOfNat_succ, hbyte, bytesOfNat_mul_add, ih]
    simp

namespace Decoder

variable {α β : Type} {d : Decoder α}

/-- A decoder reads bytes as a value, whatever stands behind them. -/
def Reads (d : Decoder α) (bytes : List UInt8) (a : α) : Prop :=
  ∀ rest offset, d ⟨bytes ++ rest, offset⟩ = .ok (a, ⟨rest, offset + bytes.length⟩)

theorem Reads.pure (a : α) : Reads (Pure.pure a : Decoder α) [] a := fun _ _ => rfl

theorem Reads.bind {f : α → Decoder β} {bytes more : List UInt8} {a : α} {b : β}
    (hd : Reads d bytes a) (hf : Reads (f a) more b) : Reads (d >>= f) (bytes ++ more) b := by
  intro rest offset
  have hrun : (d >>= f) ⟨bytes ++ more ++ rest, offset⟩ =
      (d ⟨bytes ++ more ++ rest, offset⟩ >>= fun p => f p.1 p.2) := rfl
  rw [hrun, List.append_assoc, hd (more ++ rest) offset]
  change f a ⟨more ++ rest, offset + bytes.length⟩ = _
  rw [hf rest, List.length_append, Nat.add_assoc]

theorem Reads.bind_nil {f : α → Decoder β} {bytes : List UInt8} {a : α} {b : β}
    (hd : Reads d bytes a) (hf : Reads (f a) [] b) : Reads (d >>= f) bytes b := by
  have hread := hd.bind hf
  rwa [List.append_nil] at hread

theorem Reads.map {f : α → β} {bytes : List UInt8} {a : α} (hd : Reads d bytes a) :
    Reads (d >>= fun a => Pure.pure (f a)) bytes (f a) :=
  hd.bind_nil (.pure (f a))

theorem reads_take (bytes : List UInt8) : Reads (take bytes.length) bytes bytes := by
  intro rest offset
  simp [take, Cursor.take?]

theorem reads_take_of_length {bytes : List UInt8} {count : Nat} (h : bytes.length = count) :
    Reads (take count) bytes bytes :=
  h ▸ reads_take bytes

/-- A number of some bytes is read from its bytes. -/
theorem reads_number (count : Nat) {n : Nat} (h : n < 256 ^ count) (f : Nat → β) :
    Reads (take count >>= fun bytes => Pure.pure (f (natOfBytes bytes))) (bytesOfNat count n)
      (f n) := by
  have hread := (reads_take_of_length (length_bytesOfNat count n)).map
    (f := fun bytes => f (natOfBytes bytes))
  rwa [natOfBytes_bytesOfNat h] at hread

theorem reads_byte (b : UInt8) : Reads byte [b] b := by
  have hread : Reads byte (bytesOfNat 1 b.toNat) b.toNat.toUInt8 :=
    reads_number 1 b.toNat_lt Nat.toUInt8
  simpa [bytesOfNat] using hread

theorem reads_short_of_nat {n : Nat} (h : n < 65536) :
    Reads short (bytesOfNat 2 n) n.toUInt16 :=
  reads_number 2 h Nat.toUInt16

theorem reads_short (n : UInt16) : Reads short (bytesOfNat 2 n.toNat) n := by
  have hread := reads_short_of_nat n.toNat_lt
  rwa [Nat.toUInt16, UInt16.ofNat_toNat] at hread

theorem reads_word_of_nat {n : Nat} (h : n < 4294967296) :
    Reads word (bytesOfNat 4 n) n.toUInt32 :=
  reads_number 4 h Nat.toUInt32

theorem reads_word (n : UInt32) : Reads word (bytesOfNat 4 n.toNat) n := by
  have hread := reads_word_of_nat n.toNat_lt
  rwa [Nat.toUInt32, UInt32.ofNat_toNat] at hread

/-- A number of eight bytes is read as two of four. -/
theorem reads_long (n : UInt64) : Reads long (bytesOfNat 8 n.toNat) n := by
  have hn : n.toNat < 18446744073709551616 := n.toNat_lt
  have hhigh : n.toNat / 256 ^ 4 < 4294967296 := by omega
  have hlow : n.toNat % 256 ^ 4 < 4294967296 := by omega
  have hread : Reads long _ _ :=
    (reads_word_of_nat hhigh).bind ((reads_word_of_nat hlow).map (f := fun low =>
      ((n.toNat / 256 ^ 4).toUInt32.toNat * 2 ^ 32 + low.toNat).toUInt64))
  have hvalue : ((n.toNat / 256 ^ 4).toUInt32.toNat * 2 ^ 32 +
      (n.toNat % 256 ^ 4).toUInt32.toNat).toUInt64 = n := by
    have hback : n.toNat / 256 ^ 4 % 2 ^ 32 * 2 ^ 32 + n.toNat % 256 ^ 4 % 2 ^ 32 = n.toNat := by
      omega
    change (n.toNat / 256 ^ 4 % 2 ^ 32 * 2 ^ 32 + n.toNat % 256 ^ 4 % 2 ^ 32).toUInt64 = n
    rw [hback, Nat.toUInt64, UInt64.ofNat_toNat]
  rwa [hvalue, ← bytesOfNat_add 4 4] at hread

theorem Reads.times {α : Type} {d : Decoder α} {write : α → List UInt8} {l : List α}
    (h : ∀ a ∈ l, Reads d (write a) a) : Reads (Decoder.times l.length d) (l.flatMap write) l := by
  induction l with
  | nil => exact .pure []
  | cons a l ih =>
    have hrest := ih fun b hb => h b (List.mem_cons_of_mem a hb)
    exact (h a List.mem_cons_self).bind (hrest.map (f := fun more => a :: more))

/-- What is true of every value that a decoder gives. -/
def Yields (d : Decoder α) (P : α → Prop) : Prop := ∀ s a s', d s = .ok (a, s') → P a

theorem yields_true (d : Decoder α) : Yields d fun _ => True := fun _ _ _ _ => trivial

theorem Yields.pure {P : α → Prop} {a : α} (h : P a) : Yields (Pure.pure a : Decoder α) P := by
  rintro s b s' hrun
  cases hrun
  exact h

theorem Yields.bind {f : α → Decoder β} {P : α → Prop} {Q : β → Prop} (hd : Yields d P)
    (hf : ∀ a, P a → Yields (f a) Q) : Yields (d >>= f) Q := by
  intro s b s' hrun
  change (d s >>= fun p => f p.1 p.2) = _ at hrun
  cases h : d s with
  | error e =>
    rw [h] at hrun
    cases hrun
  | ok p =>
    rw [h] at hrun
    exact hf p.1 (hd s p.1 p.2 h) p.2 b s' hrun

theorem yields_map {f : α → β} {Q : β → Prop} (hf : ∀ a, Q (f a)) :
    Yields (d >>= fun a => Pure.pure (f a)) Q :=
  (yields_true d).bind fun a _ => .pure (hf a)

theorem yields_throw {P : α → Prop} (e : ClassFault) : Yields (throw e : Decoder α) P := by
  intro s a s' hrun
  cases hrun

theorem yields_times (n : Nat) : Yields (times n d) fun l => l.length = n := by
  induction n with
  | zero => exact .pure rfl
  | succ n ih =>
    refine (yields_true d).bind fun a _ => ih.bind fun more hmore => .pure ?_
    rw [List.length_cons, hmore]

/-- A list that is counted by a number of two bytes has at most so many entries. -/
theorem yields_counted : Yields (do times (← short).toNat d) fun l => l.length ≤ 65535 := by
  refine (yields_true short).bind fun n _ => ?_
  intro s l s' hrun
  have hn := n.toNat_lt
  have hlength := yields_times n.toNat s l s' hrun
  omega

end Decoder

end JarRemap

/-!
## Class files come back from their bytes

A class file that is well formed is read from the bytes it is written to: its slots are filled as
wide constants demand, its tables are short enough to be counted, and its attribute tables have the
form of tables. Everything that is read has that form of slots and of counts.
-/

namespace JarRemap

/-- What a constant is to the slots of a pool. -/
inductive Constant.Slot where
  | plain
  | wide
  | unusable
deriving DecidableEq, Repr

/-- What a constant is to the slots of a pool. -/
def Constant.slot (c : Constant) : Slot :=
  if c.takesTwoSlots then .wide else if c = .unusable then .unusable else .plain

namespace Constant

theorem slot_eq_wide {c : Constant} : c.slot = .wide ↔ c.takesTwoSlots = true := by
  unfold slot
  cases c <;> simp [takesTwoSlots]

theorem slot_eq_unusable {c : Constant} : c.slot = .unusable ↔ c = .unusable := by
  unfold slot
  cases c <;> simp [takesTwoSlots]

theorem slot_eq_plain {c : Constant} :
    c.slot = .plain ↔ c.takesTwoSlots = false ∧ c ≠ .unusable := by
  unfold slot
  cases c <;> simp [takesTwoSlots]

end Constant

/-- Slots in which a wide constant, and nothing else, has an unusable one behind it. -/
inductive Slotted : List Constant.Slot → Prop where
  | nil : Slotted []
  | plain {rest : List Constant.Slot} : Slotted rest → Slotted (.plain :: rest)
  | wide {rest : List Constant.Slot} : Slotted rest → Slotted (.wide :: .unusable :: rest)

theorem Slotted.append_plain {slots : List Constant.Slot} (h : Slotted slots) (count : Nat) :
    Slotted (slots ++ List.replicate count .plain) := by
  induction h with
  | nil =>
    induction count with
    | zero => exact .nil
    | succ count ih => exact .plain ih
  | plain _ ih => exact .plain ih
  | wide _ ih => exact .wide ih

/-- A constant whose text, if it is one, is short enough for its length to be written. -/
def Constant.Short (c : Constant) : Prop :=
  ∀ text, c = .utf8 text → (ModifiedUtf8.encode text.toList).length ≤ 65535

namespace Decoder

theorem reads_text {text : String} (h : (ModifiedUtf8.encode text.toList).length ≤ 65535) :
    Reads Decoder.text (bytesOfNat 2 (ModifiedUtf8.encode text.toList).length ++
      ModifiedUtf8.encode text.toList) text := by
  refine (reads_short_of_nat (by omega)).bind ?_
  have hlength : (ModifiedUtf8.encode text.toList).length.toUInt16.toNat =
      (ModifiedUtf8.encode text.toList).length := Nat.mod_eq_of_lt (by omega)
  rw [hlength]
  refine (reads_take (ModifiedUtf8.encode text.toList)).bind_nil ?_
  rw [ModifiedUtf8.decode?_encode]
  simpa using Reads.pure text

theorem reads_pair {β : Type} (f : UInt16 → UInt16 → β) (a b : UInt16) :
    Reads (do return f (← short) (← short)) (Constant.shortBytes a ++ Constant.shortBytes b)
      (f a b) :=
  (reads_short a).bind ((reads_short b).map (f := f a))

/-- Every constant that takes a slot of its own is read from its bytes. -/
theorem reads_constant {c : Constant} (hc : c ≠ .unusable) (hshort : c.Short) :
    Reads constant c.toBytes c := by
  cases c with
  | unusable => exact absurd rfl hc
  | utf8 text => exact (reads_byte 1).bind (reads_text (hshort text rfl)).map
  | integer bits => exact (reads_byte 3).bind (reads_word bits).map
  | float bits => exact (reads_byte 4).bind (reads_word bits).map
  | long bits => exact (reads_byte 5).bind (reads_long bits).map
  | double bits => exact (reads_byte 6).bind (reads_long bits).map
  | classRef name => exact (reads_byte 7).bind (reads_short name).map
  | string text => exact (reads_byte 8).bind (reads_short text).map
  | fieldRef owner nt => exact (reads_byte 9).bind (reads_pair _ owner nt)
  | methodRef owner nt => exact (reads_byte 10).bind (reads_pair _ owner nt)
  | interfaceMethodRef owner nt => exact (reads_byte 11).bind (reads_pair _ owner nt)
  | nameAndType name desc => exact (reads_byte 12).bind (reads_pair _ name desc)
  | methodHandle kind reference =>
    exact (reads_byte 15).bind ((reads_byte kind).bind (reads_short reference).map)
  | methodType desc => exact (reads_byte 16).bind (reads_short desc).map
  | dynamic bootstrap nt => exact (reads_byte 17).bind (reads_pair _ bootstrap nt)
  | invokeDynamic bootstrap nt => exact (reads_byte 18).bind (reads_pair _ bootstrap nt)
  | module name => exact (reads_byte 19).bind (reads_short name).map
  | package name => exact (reads_byte 20).bind (reads_short name).map

/-- Constants whose slots are in order are read from their bytes. -/
theorem reads_constants {l : List Constant} (hslots : Slotted (l.map Constant.slot))
    (hshort : ∀ c ∈ l, c.Short) : Reads (constants l.length) (l.flatMap Constant.toBytes) l := by
  generalize hkinds : l.map Constant.slot = slots at hslots
  induction hslots generalizing l with
  | nil =>
    rw [List.map_eq_nil_iff.1 hkinds]
    exact .pure []
  | plain _ ih =>
    obtain ⟨c, rest, rfl, hslot, hrest⟩ := List.map_eq_cons_iff.1 hkinds
    obtain ⟨hone, hc⟩ := Constant.slot_eq_plain.1 hslot
    have hread := ih (fun c hc => hshort c (List.mem_cons_of_mem _ hc)) hrest
    rw [List.length_cons, List.flatMap_cons, constants]
    refine (reads_constant hc (hshort c List.mem_cons_self)).bind ?_
    rw [hone, if_neg Bool.false_ne_true]
    exact hread.map
  | wide _ ih =>
    obtain ⟨c, behind, rfl, hslot, hbehind⟩ := List.map_eq_cons_iff.1 hkinds
    obtain ⟨second, rest, rfl, hsecond, hrest⟩ := List.map_eq_cons_iff.1 hbehind
    have htwo := Constant.slot_eq_wide.1 hslot
    have hunusable := Constant.slot_eq_unusable.1 hsecond
    subst hunusable
    have hread := ih (fun c hc => hshort c (List.mem_cons_of_mem _ (List.mem_cons_of_mem _ hc))) hrest
    rw [List.length_cons, List.length_cons, List.flatMap_cons, constants]
    have hc : c ≠ .unusable := by
      rintro rfl
      cases htwo
    refine (reads_constant hc (hshort c List.mem_cons_self)).bind ?_
    rw [htwo, if_pos rfl]
    exact hread.map

end Decoder

/-- An attribute as a decoder takes it: an index, a length, and so many bytes. -/
def IsAttribute (bytes : List UInt8) : Prop :=
  ∃ name length body : List UInt8, bytes = name ++ length ++ body ∧ name.length = 2 ∧
    length.length = 4 ∧ natOfBytes length = body.length

/-- An attribute table as a decoder takes it: a count, and so many attributes. -/
def IsAttributeTable (bytes : List UInt8) : Prop :=
  ∃ (count : List UInt8) (attributes : List (List UInt8)), bytes = count ++ attributes.flatten ∧
    count.length = 2 ∧ natOfBytes count = attributes.length ∧ ∀ a ∈ attributes, IsAttribute a

namespace Decoder

theorem reads_attributeBytes {bytes : List UInt8} (h : IsAttribute bytes) :
    Reads attributeBytes bytes bytes := by
  obtain ⟨name, length, body, rfl, hname, hlength, hbody⟩ := h
  rw [List.append_assoc]
  refine (reads_take_of_length hname).bind ((reads_take_of_length hlength).bind ?_)
  rw [hbody, ← List.append_assoc]
  exact (reads_take body).map

theorem reads_attributeTable {bytes : List UInt8} (h : IsAttributeTable bytes) :
    Reads attributeTable bytes bytes := by
  obtain ⟨count, attributes, rfl, hcount, hlength, hattributes⟩ := h
  refine (reads_take_of_length hcount).bind ?_
  have hread : Reads (times attributes.length attributeBytes) (attributes.flatMap fun a => a)
      attributes := .times fun a ha => reads_attributeBytes (hattributes a ha)
  rw [List.flatMap_id'] at hread
  rw [hlength]
  exact hread.map

theorem reads_member {m : Member} (h : IsAttributeTable m.attributes) :
    Reads member m.toBytes m := by
  rw [Member.toBytes, List.append_assoc, List.append_assoc]
  exact (reads_short m.access).bind ((reads_short m.name).bind ((reads_short m.desc).bind
    (reads_attributeTable h).map))

/-- A list with its length before it is read from its bytes. -/
theorem reads_counted {α : Type} {d : Decoder α} {write : α → List UInt8} {l : List α}
    (hlength : l.length ≤ 65535) (h : ∀ a ∈ l, Reads d (write a) a) :
    Reads (do times (← short).toNat d) (bytesOfNat 2 l.length ++ l.flatMap write) l := by
  refine (reads_short_of_nat (by omega)).bind ?_
  have hcount : l.length.toUInt16.toNat = l.length := Nat.mod_eq_of_lt (by omega)
  rw [hcount]
  exact .times h

end Decoder

namespace ClassFile

/-- A class file whose slots are in order, whose tables are short enough to be counted, and which
has a name. -/
structure Framed (c : ClassFile) : Prop where
  constants : ∃ rest, c.constants.toList = .unusable :: rest ∧ Slotted (rest.map Constant.slot)
  size : c.constants.size ≤ 65535
  interfaces : c.interfaces.length ≤ 65535
  fields : c.fields.length ≤ 65535
  methods : c.methods.length ≤ 65535
  named : (c.constants.className? c.thisClass).isSome

/-- A class file whose bytes can be read. -/
structure WellFormed (c : ClassFile) : Prop extends c.Framed where
  tables : ∀ m ∈ c.fields ++ c.methods, IsAttributeTable m.attributes
  table : IsAttributeTable c.attributes

/-- A pool is read from its bytes. -/
theorem reads_pool {rest : List Constant} (hslots : Slotted (rest.map Constant.slot))
    (hsize : rest.length + 1 ≤ 65535) (hshort : ∀ c ∈ rest, c.Short) :
    Decoder.Reads Decoder.pool (bytesOfNat 2 (rest.length + 1) ++ rest.flatMap Constant.toBytes)
      (.unusable :: rest).toArray := by
  refine (Decoder.reads_short_of_nat (by omega)).bind ?_
  have hcount : (rest.length + 1).toUInt16.toNat = rest.length + 1 := Nat.mod_eq_of_lt (by omega)
  rw [hcount]
  exact (Decoder.reads_constants hslots hshort).map
    (f := fun cs => (Constant.unusable :: cs).toArray)

theorem reads_classFile {c : ClassFile} (h : c.WellFormed)
    (hshort : ∀ constant ∈ c.constants.toList, constant.Short) :
    Decoder.Reads Decoder.classFile c.toBytes c := by
  obtain ⟨rest, hconstants, hslots⟩ := h.constants
  have hsize : c.constants.size = rest.length + 1 := by
    rw [← Array.length_toList, hconstants, List.length_cons]
  have hpool := reads_pool hslots (hsize ▸ h.size) fun constant hconstant =>
    hshort constant (hconstants ▸ List.mem_cons_of_mem _ hconstant)
  rw [← hconstants, Array.toArray_toList] at hpool
  have htables : ∀ members : List Member, members ⊆ c.fields ++ c.methods →
      ∀ m ∈ members, Decoder.Reads Decoder.member m.toBytes m :=
    fun members hmembers m hm => Decoder.reads_member (h.tables m (hmembers hm))
  have hmagic : Decoder.Reads Decoder.word (bytesOfNat 4 classMagic) classMagic.toUInt32 :=
    Decoder.reads_word_of_nat (by decide)
  rw [toBytes, hsize, hconstants, List.tail_cons]
  simp only [List.append_assoc]
  refine hmagic.bind ?_
  rw [if_neg (by decide)]
  refine (Decoder.reads_short c.minor).bind ?_
  refine (Decoder.reads_short c.major).bind ?_
  rw [← List.append_assoc]
  refine hpool.bind ?_
  refine (Decoder.reads_short c.access).bind ?_
  refine (Decoder.reads_short c.thisClass).bind ?_
  refine (Decoder.reads_short c.superClass).bind ?_
  rw [← List.append_assoc]
  refine (Decoder.reads_counted h.interfaces fun n _ => Decoder.reads_short n).bind ?_
  refine (Decoder.reads_counted h.fields (htables c.fields (by simp))).bind ?_
  refine (Decoder.reads_counted h.methods (htables c.methods (by simp))).bind ?_
  exact (Decoder.reads_attributeTable h.table).map

/-- A class file is read to the end of its bytes, and has a name. -/
theorem parse_eq_ok {bytes : List UInt8} {c : ClassFile} (h : parse bytes = .ok c) :
    ∃ offset, Decoder.classFile ⟨bytes, 0⟩ = .ok (c, ⟨[], offset⟩) ∧
      (c.constants.className? c.thisClass).isSome := by
  unfold parse at h
  split at h
  · cases h
  · next found rest hrun =>
    split at h
    · cases h
    · next hempty =>
      split at h
      · cases h
      · next hnamed =>
        cases h
        have hrest : rest.rest = [] := by simpa using hempty
        exact ⟨rest.offset, hrest ▸ hrun, Option.isSome_iff_ne_none.2 (by simpa using hnamed)⟩

/-- A well-formed class file with short texts comes back from its bytes. -/
theorem parse_toBytes {c : ClassFile} (h : c.WellFormed)
    (hshort : ∀ constant ∈ c.constants.toList, constant.Short) : parse c.toBytes = .ok c := by
  have hread := reads_classFile h hshort [] 0
  rw [List.append_nil] at hread
  obtain ⟨name, hname⟩ := Option.isSome_iff_exists.1 h.named
  rw [parse, hread]
  simp [hname]

end ClassFile

namespace Decoder

/-- A constant that is read has a slot of its own. -/
theorem yields_constant : Yields constant fun c => c ≠ .unusable := by
  refine (yields_true byte).bind fun tag _ => ?_
  split
  all_goals
    first
    | exact yields_map fun _ => by simp
    | exact (yields_true _).bind fun _ _ => yields_map fun _ => by simp
    | exact yields_throw _

theorem yields_constants (slots : Nat) :
    Yields (constants slots) fun l => l.length = slots ∧ Slotted (l.map Constant.slot) := by
  induction slots using Nat.strongRecOn with
  | ind slots ih =>
    cases slots with
    | zero => exact .pure ⟨rfl, .nil⟩
    | succ slots =>
      rw [constants]
      refine yields_constant.bind fun c hc => ?_
      cases htwo : c.takesTwoSlots with
      | true =>
        rw [if_pos rfl]
        cases slots with
        | zero => exact yields_throw _
        | succ slots =>
          refine (ih slots (by omega)).bind fun rest hrest => .pure ⟨?_, ?_⟩
          · simp [hrest.1]
          · rw [List.map_cons, List.map_cons, Constant.slot_eq_wide.2 htwo,
              Constant.slot_eq_unusable.2 rfl]
            exact .wide hrest.2
      | false =>
        rw [if_neg Bool.false_ne_true]
        refine (ih slots (by omega)).bind fun rest hrest => .pure ⟨?_, ?_⟩
        · simp [hrest.1]
        · rw [List.map_cons, Constant.slot_eq_plain.2 ⟨htwo, hc⟩]
          exact .plain hrest.2

theorem yields_pool : Yields pool fun cs => cs.size ≤ 65535 ∧
    ∃ rest, cs.toList = .unusable :: rest ∧ Slotted (rest.map Constant.slot) := by
  refine (yields_true short).bind fun count _ => ?_
  have hcount := count.toNat_lt
  split
  · exact yields_throw _
  · next slots hslots =>
    refine (yields_constants slots).bind fun rest hrest => .pure ⟨?_, rest, rfl, hrest.2⟩
    simp only [List.size_toArray, List.length_cons, hrest.1]
    omega

end Decoder

namespace ClassFile

/-- Every class file that is read is framed. -/
theorem framed_of_parse {bytes : List UInt8} {c : ClassFile} (h : parse bytes = .ok c) :
    c.Framed := by
  have hyields : Decoder.Yields Decoder.classFile fun c =>
      (c.constants.size ≤ 65535 ∧
        ∃ rest, c.constants.toList = .unusable :: rest ∧ Slotted (rest.map Constant.slot)) ∧
      c.interfaces.length ≤ 65535 ∧ c.fields.length ≤ 65535 ∧ c.methods.length ≤ 65535 := by
    refine (Decoder.yields_true _).bind fun _ _ => ?_
    split
    · exact Decoder.yields_throw _
    · refine (Decoder.yields_true _).bind fun _ _ => (Decoder.yields_true _).bind fun _ _ => ?_
      refine Decoder.yields_pool.bind fun constants hconstants => ?_
      refine (Decoder.yields_true _).bind fun _ _ => (Decoder.yields_true _).bind fun _ _ => ?_
      refine (Decoder.yields_true _).bind fun _ _ => ?_
      refine Decoder.yields_counted.bind fun interfaces hinterfaces => ?_
      refine Decoder.yields_counted.bind fun fields hfields => ?_
      refine Decoder.yields_counted.bind fun methods hmethods => ?_
      exact Decoder.yields_map fun _ => ⟨hconstants, hinterfaces, hfields, hmethods⟩
  obtain ⟨offset, hrun, hnamed⟩ := parse_eq_ok h
  obtain ⟨⟨hsize, hconstants⟩, hinterfaces, hfields, hmethods⟩ := hyields _ _ _ hrun
  exact ⟨hconstants, hsize, hinterfaces, hfields, hmethods, hnamed⟩

end ClassFile

end JarRemap
