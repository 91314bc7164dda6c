import JarRemap.Proofs.ClassFile.Lengths

/-!
# Class files are written as they were read

A decoder takes bytes off the front; what it takes is told beside the value it gives. All parts of a
class file but its texts have one form, so the bytes that are taken are those that are written. The
main statement is that a class file that was read comes back from what is written of it, and that
what is written are the bytes it was read from if and only if each of its texts was in its shortest
form.
-/

namespace JarRemap

namespace Decoder

variable {α β : Type} {d : Decoder α}

/-- What is true of the bytes that a decoder takes and the value it gives. -/
def Takes (d : Decoder α) (P : List UInt8 → α → Prop) : Prop :=
  ∀ s a s', d s = .ok (a, s') → ∃ taken, s.rest = taken ++ s'.rest ∧ P taken a

theorem Takes.pure {P : List UInt8 → α → Prop} {a : α} (h : P [] a) :
    Takes (Pure.pure a : Decoder α) P := by
  rintro s b s' hrun
  cases hrun
  exact ⟨[], rfl, h⟩

theorem Takes.bind {f : α → Decoder β} {P : List UInt8 → α → Prop} {Q : List UInt8 → β → Prop}
    (hd : Takes d P) (hf : ∀ a taken, P taken a → Takes (f a) fun more b => Q (taken ++ more) b) :
    Takes (d >>= f) Q := by
  intro s b s' hrun
  change (d s >>= fun p => f p.1 p.2) = _ at hrun
  cases h : d s with
  | error e =>
    rw [h] at hrun
    cases hrun
  | ok p =>
    rw [h] at hrun
    obtain ⟨taken, hrest, ha⟩ := hd s p.1 p.2 h
    obtain ⟨more, hmore, hb⟩ := hf p.1 taken ha p.2 b s' hrun
    exact ⟨taken ++ more, by rw [hrest, hmore, List.append_assoc], hb⟩

theorem Takes.map {f : α → β} {P : List UInt8 → α → Prop} {Q : List UInt8 → β → Prop}
    (hd : Takes d P) (hf : ∀ a taken, P taken a → Q taken (f a)) :
    Takes (d >>= fun a => Pure.pure (f a)) Q :=
  hd.bind fun a taken ha => .pure (by simpa using hf a taken ha)

theorem takes_throw {P : List UInt8 → α → Prop} (e : ClassFault) :
    Takes (throw e : Decoder α) P := by
  intro s a s' hrun
  cases hrun

theorem takes_take (count : Nat) :
    Takes (take count) fun taken bytes => taken = bytes ∧ bytes.length = count := by
  intro s bytes s' hrun
  have hlength := yields_take count s bytes s' hrun
  unfold take at hrun
  cases htaken : s.take? count with
  | none =>
    rw [htaken] at hrun
    cases hrun
  | some r =>
    rw [htaken] at hrun
    cases hrun
    unfold Cursor.take? at htaken
    dsimp only at htaken
    split at htaken
    · cases htaken
      exact ⟨_, (List.take_append_drop count s.rest).symm, rfl, hlength⟩
    · cases htaken

/-- A number is taken as its bytes. -/
theorem takes_number (count : Nat) {f : Nat → β} {Q : List UInt8 → β → Prop}
    (h : ∀ n < 256 ^ count, Q (bytesOfNat count n) (f n)) :
    Takes (take count >>= fun bytes => Pure.pure (f (natOfBytes bytes))) Q := by
  refine (takes_take count).map ?_
  rintro bytes taken ⟨rfl, hlength⟩
  have hbytes := h (natOfBytes taken) (hlength ▸ natOfBytes_lt taken)
  rwa [← hlength, bytesOfNat_natOfBytes] at hbytes

theorem takes_byte : Takes byte fun taken b => taken = [b] := by
  refine takes_number 1 fun n _ => ?_
  simp [bytesOfNat]

theorem takes_short : Takes short fun taken n => taken = bytesOfNat 2 n.toNat := by
  refine takes_number 2 fun n hn => ?_
  have hback : n.toUInt16.toNat = n := Nat.mod_eq_of_lt hn
  rw [hback]

theorem takes_word : Takes word fun taken n => taken = bytesOfNat 4 n.toNat := by
  refine takes_number 4 fun n hn => ?_
  have hback : n.toUInt32.toNat = n := Nat.mod_eq_of_lt hn
  rw [hback]

/-- A number of eight bytes is taken as two of four. -/
theorem takes_long : Takes long fun taken n => taken = bytesOfNat 8 n.toNat := by
  refine takes_word.bind fun high taken hhigh => takes_word.map fun low more hlow => ?_
  have hh : high.toNat < 2 ^ 32 := high.toNat_lt
  have hl : low.toNat < 2 ^ 32 := low.toNat_lt
  have hlt : high.toNat * 2 ^ 32 + low.toNat < 2 ^ 64 := by omega
  have hback : (high.toNat * 2 ^ 32 + low.toNat).toUInt64.toNat = high.toNat * 2 ^ 32 + low.toNat :=
    UInt64.toNat_ofNat_of_lt' hlt
  have hfirst : (high.toNat * 2 ^ 32 + low.toNat) / 256 ^ 4 = high.toNat := by omega
  have hsecond : (high.toNat * 2 ^ 32 + low.toNat) % 256 ^ 4 = low.toNat := by omega
  change taken ++ more = bytesOfNat 8 (high.toNat * 2 ^ 32 + low.toNat).toUInt64.toNat
  rw [hhigh, hlow, hback, bytesOfNat_add 4 4, hfirst, hsecond]

theorem Takes.times {write : α → List UInt8} {P : α → Prop} (n : Nat)
    (hd : Takes d fun taken a => taken = write a ∧ P a) :
    Takes (Decoder.times n d) fun taken l =>
      taken = l.flatMap write ∧ l.length = n ∧ ∀ a ∈ l, P a := by
  induction n with
  | zero => exact .pure ⟨rfl, rfl, List.forall_mem_nil _⟩
  | succ n ih =>
    refine hd.bind fun a taken ha => ih.map fun l more hl => ?_
    obtain ⟨rfl, hP⟩ := ha
    obtain ⟨rfl, rfl, hrest⟩ := hl
    exact ⟨rfl, rfl, List.forall_mem_cons.2 ⟨hP, hrest⟩⟩

/-- A list that is counted is taken as its length and its entries. -/
theorem Takes.counted {write : α → List UInt8} {P : α → Prop}
    (hd : Takes d fun taken a => taken = write a ∧ P a) :
    Takes (do Decoder.times (← short).toNat d) fun taken l =>
      taken = bytesOfNat 2 l.length ++ l.flatMap write ∧ ∀ a ∈ l, P a := by
  refine takes_short.bind fun n taken hn => ?_
  intro s l s' hrun
  obtain ⟨more, hrest, rfl, hlength, hP⟩ := Takes.times n.toNat hd s l s' hrun
  exact ⟨_, hrest, by rw [hn, hlength], hP⟩

theorem takes_attributeBytes :
    Takes attributeBytes fun taken bytes => taken = bytes ∧ IsAttribute bytes := by
  refine (takes_take 2).bind fun name _ hname => (takes_take 4).bind fun length _ hlength => ?_
  refine (takes_take (natOfBytes length)).map fun body _ hbody => ?_
  obtain ⟨rfl, hname⟩ := hname
  obtain ⟨rfl, hlength⟩ := hlength
  obtain ⟨rfl, hbody⟩ := hbody
  exact ⟨(List.append_assoc _ _ _).symm, _, _, _, rfl, hname, hlength, hbody.symm⟩

theorem takes_attributeTable :
    Takes attributeTable fun taken bytes => taken = bytes ∧ IsAttributeTable bytes := by
  refine (takes_take 2).bind fun count _ hcount => ?_
  refine (takes_attributeBytes.times (natOfBytes count)).map ?_
  rintro attributes _ ⟨rfl, hlength, hattributes⟩
  obtain ⟨rfl, hcount⟩ := hcount
  rw [List.flatMap_id']
  exact ⟨rfl, _, attributes, rfl, hcount, hlength.symm, hattributes⟩

theorem takes_member :
    Takes member fun taken m => taken = m.toBytes ∧ IsAttributeTable m.attributes := by
  refine takes_short.bind fun access _ haccess => takes_short.bind fun name _ hname => ?_
  refine takes_short.bind fun desc _ hdesc => takes_attributeTable.map fun table _ htable => ?_
  obtain ⟨rfl, htable⟩ := htable
  rw [haccess, hname, hdesc, Member.toBytes]
  simp only [List.append_assoc]
  exact ⟨trivial, htable⟩

end Decoder

/-- How many bytes stand behind the tag of a constant; a text has its length before it. -/
def bodyLength (tag : UInt8) (behind : List UInt8) : Nat :=
  match tag.toNat with
  | 1 => 2 + natOfBytes (behind.take 2)
  | 3 | 4 => 4
  | 5 | 6 => 8
  | 7 | 8 | 16 | 19 | 20 => 2
  | 15 => 3
  | _ => 4

/-- The bytes of the texts in so many slots of a pool, found by tags and lengths alone. -/
def rawTextsFrom : Nat → List UInt8 → List (List UInt8)
  | 0, _ | _, [] => []
  | slots + 1, tag :: behind =>
      let length := bodyLength tag behind
      if tag = 1 then (behind.take length).drop 2 :: rawTextsFrom slots (behind.drop length)
      else if tag = 5 ∨ tag = 6 then
        match slots with
        | 0 => []
        | slots + 1 => rawTextsFrom slots (behind.drop length)
      else rawTextsFrom slots (behind.drop length)

/-- The bytes of the texts in the bytes of a class file. -/
def rawTexts (bytes : List UInt8) : List (List UInt8) :=
  rawTextsFrom (natOfBytes ((bytes.drop 8).take 2) - 1) (bytes.drop 10)

/-- The bytes that a constant is read from: a tag, and a body that is as long as the tag says. They
are those that are written of it, unless they are those of a text that is not in its shortest
form. -/
structure Constant.IsReadFrom (c : Constant) (tag : UInt8) (body : List UInt8) : Prop where
  length : ∀ behind, bodyLength tag (body ++ behind) = body.length
  wide : tag = 5 ∨ tag = 6 ↔ c.takesTwoSlots = true
  written : tag :: body = c.toBytes ↔ (tag = 1 → ModifiedUtf8.Shortest (body.drop 2))
  noShorter : c.toBytes.length ≤ body.length + 1

namespace Decoder

/-- A decoder takes what is left of a constant behind its tag. -/
def TakesBody (tag : UInt8) (d : Decoder Constant) : Prop :=
  Takes d fun body c => c.IsReadFrom tag body

theorem takesBody_text : TakesBody 1 (do return .utf8 (← text)) := by
  refine Takes.map (P := fun body s => ∃ payload : List UInt8,
    body = bytesOfNat 2 payload.length ++ payload ∧ payload.length < 65536 ∧
      ModifiedUtf8.decode? payload = some s.toList) ?_ ?_
  · refine takes_short.bind fun length _ hlength => (takes_take length.toNat).bind ?_
    rintro payload _ ⟨rfl, hpayload⟩
    split
    · next s hs =>
      refine .pure ⟨_, ?_, hpayload ▸ length.toNat_lt, by rw [hs, String.toList_ofList]⟩
      rw [hlength, hpayload, List.append_nil]
    · exact takes_throw _
  · rintro s _ ⟨payload, rfl, hlength, hs⟩
    have hnumber : natOfBytes (bytesOfNat 2 payload.length) = payload.length :=
      natOfBytes_bytesOfNat hlength
    have hshorter := ModifiedUtf8.length_encode_of_decode? hs
    refine ⟨fun behind => ?_, by simp [Constant.takesTwoSlots], ?_, ?_⟩
    · simp [bodyLength, hnumber]
    · have hpayload : (bytesOfNat 2 payload.length ++ payload).drop 2 = payload :=
        List.drop_left' (length_bytesOfNat 2 _)
      rw [hpayload, ← ModifiedUtf8.encode_eq_iff hs, Constant.toBytes, List.cons_append,
        List.cons_inj_right]
      constructor
      · intro hsame _
        exact (List.append_inj_right hsame (by simp)).symm
      · intro hsame
        rw [hsame rfl]
    · simp only [Constant.toBytes, List.length_cons, List.length_append, length_bytesOfNat]
      omega

/-- All that is no text has one form. -/
theorem isReadFrom_of_written {c : Constant} {tag : UInt8} {body : List UInt8}
    (htag : tag ≠ 1) (hbytes : c.toBytes = tag :: body)
    (hlength : ∀ behind, bodyLength tag behind = body.length)
    (hwide : decide (tag = 5 ∨ tag = 6) = c.takesTwoSlots) : c.IsReadFrom tag body where
  length behind := hlength (body ++ behind)
  wide := by rw [← hwide, decide_eq_true_iff]
  written := iff_of_true hbytes.symm fun h => absurd h htag
  noShorter := by rw [hbytes, List.length_cons]

theorem takesBody_number {e : Decoder α} {count : Nat} {value : α → Nat} {tag : UInt8}
    {make : α → Constant} (he : Takes e fun taken a => taken = bytesOfNat count (value a))
    (htag : tag ≠ 1 := by decide)
    (hbytes : ∀ a, (make a).toBytes = tag :: bytesOfNat count (value a) := by exact fun _ => rfl)
    (hlength : ∀ behind, bodyLength tag behind = count := by exact fun _ => rfl)
    (hwide : ∀ a, decide (tag = 5 ∨ tag = 6) = (make a).takesTwoSlots := by exact fun _ => rfl) :
    TakesBody tag (do return make (← e)) := by
  refine he.map fun a _ ha => ?_
  subst ha
  refine isReadFrom_of_written htag (hbytes a) (fun behind => ?_) (hwide a)
  rw [hlength, length_bytesOfNat]

theorem takesBody_pair {tag : UInt8} (make : UInt16 → UInt16 → Constant)
    (htag : tag ≠ 1 := by decide)
    (hbytes : ∀ m n, (make m n).toBytes = Constant.pairBytes tag m n := by exact fun _ _ => rfl)
    (hlength : ∀ behind, bodyLength tag behind = 4 := by exact fun _ => rfl)
    (hwide : ∀ m n, decide (tag = 5 ∨ tag = 6) = (make m n).takesTwoSlots := by
      exact fun _ _ => rfl) :
    TakesBody tag (do return make (← short) (← short)) := by
  refine takes_short.bind fun m _ hm => takes_short.map fun n _ hn => ?_
  subst hm hn
  refine isReadFrom_of_written htag (hbytes m n) (fun behind => ?_) (hwide m n)
  rw [hlength, List.length_append, length_bytesOfNat, length_bytesOfNat]

theorem takesBody_methodHandle : TakesBody 15 (do return .methodHandle (← byte) (← short)) := by
  refine takes_byte.bind fun kind _ hkind => takes_short.map fun reference _ hreference => ?_
  subst hkind hreference
  exact isReadFrom_of_written (by decide) rfl (fun _ => rfl) rfl

/-- Every kind of constant is taken as its tag and its body. -/
theorem takes_constant :
    Takes constant fun taken c => ∃ tag body, taken = tag :: body ∧ c.IsReadFrom tag body := by
  refine takes_byte.bind fun tag _ htag => ?_
  subst htag
  have hbody : ∀ {n : Nat} {d : Decoder Constant}, tag.toNat = n → TakesBody n.toUInt8 d →
      Takes d fun body c => ∃ t b, [tag] ++ body = t :: b ∧ c.IsReadFrom t b := by
    rintro n d rfl htakes s c s' hrun
    obtain ⟨body, hrest, hc⟩ := htakes s c s' hrun
    rw [Nat.toUInt8, UInt8.ofNat_toNat] at hc
    exact ⟨body, hrest, tag, body, rfl, hc⟩
  split
  case h_1 h => exact hbody h takesBody_text
  case h_2 h => exact hbody h (takesBody_number takes_word)
  case h_3 h => exact hbody h (takesBody_number takes_word)
  case h_4 h => exact hbody h (takesBody_number takes_long)
  case h_5 h => exact hbody h (takesBody_number takes_long)
  case h_6 h => exact hbody h (takesBody_number takes_short)
  case h_7 h => exact hbody h (takesBody_number takes_short)
  case h_8 h => exact hbody h (takesBody_pair .fieldRef)
  case h_9 h => exact hbody h (takesBody_pair .methodRef)
  case h_10 h => exact hbody h (takesBody_pair .interfaceMethodRef)
  case h_11 h => exact hbody h (takesBody_pair .nameAndType)
  case h_12 h => exact hbody h takesBody_methodHandle
  case h_13 h => exact hbody h (takesBody_number takes_short)
  case h_14 h => exact hbody h (takesBody_pair .dynamic)
  case h_15 h => exact hbody h (takesBody_pair .invokeDynamic)
  case h_16 h => exact hbody h (takesBody_number takes_short)
  case h_17 h => exact hbody h (takesBody_number takes_short)
  case h_18 => exact takes_throw _

end Decoder

/-- Bytes that so many slots of a pool are read from. They are those that are written of the
constants if and only if their texts are in their shortest forms. -/
structure AreReadFrom (slots : Nat) (l : List Constant) (bytes : List UInt8) : Prop where
  length : l.length = slots
  written : ∀ behind, bytes = l.flatMap Constant.toBytes ↔
    ∀ text ∈ rawTextsFrom slots (bytes ++ behind), ModifiedUtf8.Shortest text
  noShorter : (l.flatMap Constant.toBytes).length ≤ bytes.length

theorem append_eq_append_iff_of_length_le {a b a' b' : List UInt8} (ha : a'.length ≤ a.length)
    (hb : b'.length ≤ b.length) : a ++ b = a' ++ b' ↔ a = a' ∧ b = b' := by
  constructor
  · intro h
    have hlength := congrArg List.length h
    rw [List.length_append, List.length_append] at hlength
    exact List.append_inj h (by omega)
  · rintro ⟨rfl, rfl⟩
    rfl

theorem rawTextsFrom_cons {slots : Nat} {c : Constant} {tag : UInt8} {body behind : List UInt8}
    (hc : c.IsReadFrom tag body) (hone : c.takesTwoSlots = false) :
    rawTextsFrom (slots + 1) (tag :: body ++ behind) =
      (if tag = 1 then [body.drop 2] else []) ++ rawTextsFrom slots behind := by
  have hnarrow : ¬ (tag = 5 ∨ tag = 6) := by simp [hc.wide, hone]
  rw [List.cons_append, rawTextsFrom.eq_def]
  dsimp only
  rw [hc.length, List.take_left, List.drop_left, if_neg hnarrow]
  split <;> rfl

theorem rawTextsFrom_cons_wide {slots : Nat} {c : Constant} {tag : UInt8}
    {body behind : List UInt8} (hc : c.IsReadFrom tag body) (htwo : c.takesTwoSlots = true) :
    rawTextsFrom (slots + 2) (tag :: body ++ behind) = rawTextsFrom slots behind := by
  have hwide : tag = 5 ∨ tag = 6 := hc.wide.2 htwo
  have htext : tag ≠ 1 := by rcases hwide with rfl | rfl <;> decide
  rw [List.cons_append, rawTextsFrom.eq_def]
  dsimp only
  rw [hc.length, List.drop_left, if_neg htext, if_pos hwide]

namespace AreReadFrom

variable {slots : Nat} {rest : List Constant} {c : Constant} {tag : UInt8} {body more : List UInt8}

theorem nil : AreReadFrom 0 [] [] := ⟨rfl, fun _ => by simp [rawTextsFrom], Nat.le_refl 0⟩

theorem cons (hc : c.IsReadFrom tag body) (hone : c.takesTwoSlots = false)
    (hrest : AreReadFrom slots rest more) :
    AreReadFrom (slots + 1) (c :: rest) (tag :: body ++ more) := by
  refine ⟨by rw [List.length_cons, hrest.length], fun behind => ?_, ?_⟩
  · have htext : (∀ text ∈ (if tag = 1 then [body.drop 2] else []), ModifiedUtf8.Shortest text) ↔
        (tag = 1 → ModifiedUtf8.Shortest (body.drop 2)) := by
      split <;> simp [*]
    rw [List.flatMap_cons, append_eq_append_iff_of_length_le hc.noShorter hrest.noShorter,
      hc.written, hrest.written behind, List.append_assoc, rawTextsFrom_cons hc hone,
      List.forall_mem_append, htext]
  · have hfirst := hc.noShorter
    have hothers := hrest.noShorter
    rw [List.flatMap_cons, List.length_append, List.length_append, List.length_cons]
    omega

theorem cons_wide (hc : c.IsReadFrom tag body) (htwo : c.takesTwoSlots = true)
    (hrest : AreReadFrom slots rest more) :
    AreReadFrom (slots + 2) (c :: .unusable :: rest) (tag :: body ++ more) := by
  have hbytes : (c :: .unusable :: rest).flatMap Constant.toBytes =
      c.toBytes ++ rest.flatMap Constant.toBytes := rfl
  refine ⟨by rw [List.length_cons, List.length_cons, hrest.length], fun behind => ?_, ?_⟩
  · have htext : tag = 1 → ModifiedUtf8.Shortest (body.drop 2) := by
      rintro rfl
      exact absurd (hc.wide.2 htwo) (by decide)
    rw [hbytes, append_eq_append_iff_of_length_le hc.noShorter hrest.noShorter, hc.written,
      hrest.written behind, List.append_assoc, rawTextsFrom_cons_wide hc htwo]
    exact and_iff_right htext
  · have hfirst := hc.noShorter
    have hothers := hrest.noShorter
    rw [hbytes, List.length_append, List.length_append, List.length_cons]
    omega

end AreReadFrom

namespace Decoder

theorem takes_constants (slots : Nat) :
    Takes (constants slots) fun taken l => AreReadFrom slots l taken := by
  induction slots using Nat.strongRecOn with
  | ind slots ih =>
    cases slots with
    | zero => exact .pure .nil
    | succ slots =>
      rw [constants]
      refine takes_constant.bind fun c _ hc => ?_
      obtain ⟨tag, body, rfl, hc⟩ := hc
      cases htwo : c.takesTwoSlots with
      | true =>
        rw [if_pos rfl]
        cases slots with
        | zero => exact takes_throw _
        | succ slots => exact (ih slots (by omega)).map fun _ _ hrest => hrest.cons_wide hc htwo
      | false =>
        rw [if_neg Bool.false_ne_true]
        exact (ih slots (by omega)).map fun _ _ hrest => hrest.cons hc htwo

theorem takes_pool : Takes pool fun taken cs => ∃ rest body,
    cs.toList = .unusable :: rest ∧ rest.length < 65535 ∧
      taken = bytesOfNat 2 (rest.length + 1) ++ body ∧ AreReadFrom rest.length rest body := by
  refine takes_short.bind fun count _ hcount => ?_
  have hsize := count.toNat_lt
  split
  · exact takes_throw _
  · next slots hslots =>
    refine (takes_constants slots).map fun rest body hrest => ?_
    have hlength := hrest.length
    subst hlength
    exact ⟨rest, body, rfl, by omega, by rw [hcount, hslots], hrest⟩

end Decoder

namespace ClassFile

/-- What is written of a class file before its pool. -/
def headBytes (c : ClassFile) : List UInt8 :=
  bytesOfNat 4 classMagic ++ bytesOfNat 2 c.minor.toNat ++ bytesOfNat 2 c.major.toNat

/-- What is written of a class file behind its pool. -/
def tailBytes (c : ClassFile) : List UInt8 :=
  bytesOfNat 2 c.access.toNat ++ bytesOfNat 2 c.thisClass.toNat ++
    bytesOfNat 2 c.superClass.toNat ++ bytesOfNat 2 c.interfaces.length ++
    c.interfaces.flatMap Constant.shortBytes ++ Member.tableBytes c.fields ++
    Member.tableBytes c.methods ++ c.attributes

/-- The bytes that a class file is read from: all but those of its constants are those that are
written of it. -/
structure IsReadFrom (c : ClassFile) (bytes : List UInt8) : Prop where
  layout : ∃ rest body, c.constants.toList = .unusable :: rest ∧ rest.length < 65535 ∧
    bytes = c.headBytes ++ (bytesOfNat 2 (rest.length + 1) ++ body) ++ c.tailBytes ∧
    AreReadFrom rest.length rest body
  tables : ∀ m ∈ c.fields ++ c.methods, IsAttributeTable m.attributes
  table : IsAttributeTable c.attributes

end ClassFile

theorem Decoder.takes_classFile : Takes classFile fun taken c => c.IsReadFrom taken := by
  refine takes_word.bind fun magic _ hmagic => ?_
  split
  · exact takes_throw _
  next hsame =>
  refine takes_short.bind fun minor _ hminor => takes_short.bind fun major _ hmajor => ?_
  refine takes_pool.bind fun constants _ hconstants => ?_
  refine takes_short.bind fun access _ haccess => takes_short.bind fun this _ hthis => ?_
  refine takes_short.bind fun super _ hsuper => ?_
  have hshort : Takes short fun taken n => taken = Constant.shortBytes n ∧ True := by
    intro s n s' hrun
    obtain ⟨taken, hrest, rfl⟩ := takes_short s n s' hrun
    exact ⟨_, hrest, rfl, trivial⟩
  refine hshort.counted.bind fun interfaces _ hinterfaces => ?_
  refine takes_member.counted.bind fun fields _ hfields => ?_
  refine takes_member.counted.bind fun methods _ hmethods => ?_
  refine takes_attributeTable.map fun table _ htable => ?_
  obtain ⟨rest, body, hrest, hlength, hpool, hread⟩ := hconstants
  refine ⟨⟨rest, body, hrest, hlength, ?_, hread⟩, ?_, htable.2⟩
  · have hmark : magic.toNat = classMagic := Decidable.not_not.1 hsame
    rw [hmagic, hmark, hminor, hmajor, hpool, haccess, hthis, hsuper, hinterfaces.1, hfields.1,
      hmethods.1, htable.1]
    simp only [ClassFile.headBytes, ClassFile.tailBytes, Member.tableBytes, List.append_assoc]
  · intro m hm
    rcases List.mem_append.1 hm with hm | hm
    · exact hfields.2 m hm
    · exact hmethods.2 m hm

namespace ClassFile

theorem toBytes_eq {c : ClassFile} {rest : List Constant}
    (h : c.constants.toList = .unusable :: rest) :
    c.toBytes = c.headBytes ++ (bytesOfNat 2 (rest.length + 1) ++ rest.flatMap Constant.toBytes) ++
      c.tailBytes := by
  have hsize : c.constants.size = rest.length + 1 := by
    rw [← Array.length_toList, h, List.length_cons]
  rw [toBytes, hsize, h, List.tail_cons]
  simp only [headBytes, tailBytes, List.append_assoc]

/-- The texts in the bytes of a class file are those of its constants. -/
theorem rawTexts_append {c : ClassFile} {count : Nat} (hcount : count + 1 < 65536)
    (body : List UInt8) :
    rawTexts (c.headBytes ++ (bytesOfNat 2 (count + 1) ++ body) ++ c.tailBytes) =
      rawTextsFrom count (body ++ c.tailBytes) := by
  have hhead : c.headBytes.length = 8 := by simp [headBytes]
  have hnumber : natOfBytes (bytesOfNat 2 (count + 1)) = count + 1 := natOfBytes_bytesOfNat hcount
  have hbehind : (c.headBytes ++ (bytesOfNat 2 (count + 1) ++ body) ++ c.tailBytes).drop 8 =
      bytesOfNat 2 (count + 1) ++ (body ++ c.tailBytes) := by
    rw [List.append_assoc, List.append_assoc]
    exact List.drop_left' hhead
  rw [rawTexts, hbehind, List.take_left' (length_bytesOfNat 2 _), hnumber, Nat.add_sub_cancel,
    show 10 = 8 + 2 from rfl, ← List.drop_drop, hbehind, List.drop_left' (length_bytesOfNat 2 _)]

/-- What is written of a class file are the bytes it was read from if and only if its texts were in
their shortest forms. -/
theorem IsReadFrom.toBytes_eq_iff {c : ClassFile} {bytes : List UInt8} (h : c.IsReadFrom bytes) :
    c.toBytes = bytes ↔ ∀ text ∈ rawTexts bytes, ModifiedUtf8.Shortest text := by
  obtain ⟨rest, body, hrest, hlength, rfl, hread⟩ := h.layout
  rw [rawTexts_append (by omega), ← hread.written, toBytes_eq hrest, List.append_left_inj,
    List.append_right_inj, List.append_right_inj]
  exact eq_comm

theorem isReadFrom_of_parse {bytes : List UInt8} {c : ClassFile} (h : parse bytes = .ok c) :
    c.IsReadFrom bytes := by
  obtain ⟨offset, hrun, -⟩ := parse_eq_ok h
  obtain ⟨taken, hbytes, hread⟩ := Decoder.takes_classFile _ _ _ hrun
  rw [List.append_nil] at hbytes
  change bytes = taken at hbytes
  exact hbytes ▸ hread

/-- Every class file that is read can be written and read again. -/
theorem wellFormed_of_parse {bytes : List UInt8} {c : ClassFile} (h : parse bytes = .ok c) :
    c.WellFormed where
  toFramed := framed_of_parse h
  tables := (isReadFrom_of_parse h).tables
  table := (isReadFrom_of_parse h).table

/-- A class file that was read comes back from what is written of it, and that is what it was read
from if and only if all its texts were in their shortest forms. -/
theorem written_as_read {bytes : List UInt8} {c : ClassFile} (h : parse bytes = .ok c) :
    parse c.toBytes = .ok c ∧
      (c.toBytes = bytes ↔ ∀ text ∈ rawTexts bytes, ModifiedUtf8.Shortest text) :=
  ⟨parse_toBytes (wellFormed_of_parse h) (short_of_parse h),
    (isReadFrom_of_parse h).toBytes_eq_iff⟩

/-- The bytes of a class that has a name of these bytes, a wide constant, and the texts of the null
character and of a character beyond the first 65536. -/
def sampleBytes (name : List UInt8) : List UInt8 :=
  [0xCA, 0xFE, 0xBA, 0xBE, 0, 0, 0, 52, 0, 7, 1, 0, name.length.toUInt8] ++ name ++
    [7, 0, 1, 5, 1, 2, 3, 4, 5, 6, 7, 8, 1, 0, 2, 0xC0, 0x80, 1, 0, 6, 0xED, 0xA0, 0xBD, 0xED, 0xB8,
      0x80, 0, 33, 0, 2, 0, 0, 0, 0, 0, 0, 0, 0, 0, 0]

def sampleClass : ClassFile where
  minor := 0
  major := 52
  constants := #[.unusable, .utf8 "a", .classRef 1, .long 0x0102030405060708, .unusable,
    .utf8 "\x00", .utf8 "😀"]
  access := 33
  thisClass := 2
  superClass := 0
  interfaces := []
  fields := []
  methods := []
  attributes := [0, 0]

theorem written_as_read_overlong_name :
    parse (sampleBytes [0x61]) = .ok sampleClass ∧
      sampleClass.toBytes = sampleBytes [0x61] ∧
      parse (sampleBytes [0xC1, 0xA1]) = .ok sampleClass ∧
      parse sampleClass.toBytes = .ok sampleClass ∧
      sampleClass.toBytes ≠ sampleBytes [0xC1, 0xA1] := by
  have hshort : parse (sampleBytes [0x61]) = .ok sampleClass := by decide +kernel
  have hlong : parse (sampleBytes [0xC1, 0xA1]) = .ok sampleClass := by decide +kernel
  have hread := written_as_read hlong
  refine ⟨hshort, (written_as_read hshort).2.2 (by decide +kernel), hlong, hread.1, ?_⟩
  intro hsame
  exact absurd (hread.2.1 hsame) (by decide +kernel)

end ClassFile

end JarRemap
