import JarRemap.Proofs.ClassFile.RoundTrip
import JarRemap.Proofs.ClassFile.Text

/-!
# Texts that were read are short

Reading a text accepts longer forms than are ever written, so what is written of a text that was
read takes at most the bytes it was read from. The length of those is a number of two bytes.
-/

namespace JarRemap

namespace ModifiedUtf8

/-- A unit is written in no more bytes than any of its forms has. -/
theorem length_encodeUnit_le {bytes : List UInt8} {u : UInt16} (h : SpellsUnit bytes u) :
    (encodeUnit u).length ≤ bytes.length := by
  have hmost : (encodeUnit u).length ≤ 3 := by
    unfold encodeUnit
    dsimp only
    split
    · simp
    · split <;> simp
  cases h with
  | single low high => rw [(encodeUnit_eq_iff (.single low high)).2 (shortest_single _)]
  | @double a b ha hb =>
    have hn : (a * 64 + b).toUInt16.toNat = a * 64 + b := Nat.mod_eq_of_lt (by omega)
    rw [encodeUnit, hn]
    split
    · simp
    · rw [if_pos (by omega)]
      simp
  | triple => exact hmost

theorem length_flatMap_encodeUnit_le {bytes : List UInt8} {units : List UInt16}
    (h : Spells bytes units) : (units.flatMap encodeUnit).length ≤ bytes.length := by
  induction h with
  | nil => simp
  | cons hform _ ih =>
    have hfirst := length_encodeUnit_le hform
    rw [List.flatMap_cons, List.length_append, List.length_append]
    omega

/-- A text is written in no more bytes than it was read from. -/
theorem length_encode_of_decode? {bytes : List UInt8} {s : List Char} (h : decode? bytes = some s) :
    (encode s).length ≤ bytes.length :=
  length_flatMap_encodeUnit_le (spells_of_decode? h)

end ModifiedUtf8

namespace Decoder

theorem yields_take (count : Nat) : Yields (take count) fun bytes => bytes.length = count := by
  intro s bytes s' hrun
  unfold take at hrun
  cases htaken : s.take? count with
  | none =>
    rw [htaken] at hrun
    cases hrun
  | some r =>
    rw [htaken] at hrun
    cases hrun
    unfold Cursor.take? at htaken
    dsimp only at htaken
    split at htaken
    · next hlength =>
      cases htaken
      exact hlength
    · cases htaken

theorem yields_text : Yields text fun s => (ModifiedUtf8.encode s.toList).length ≤ 65535 := by
  refine (yields_true short).bind fun length _ => ?_
  refine (yields_take length.toNat).bind fun bytes hbytes => ?_
  have hlength := length.toNat_lt
  split
  · next s hs =>
    have hle := ModifiedUtf8.length_encode_of_decode? hs
    refine .pure ?_
    rw [String.toList_ofList]
    omega
  · exact yields_throw _

/-- Every text that is read as a constant is short. -/
theorem yields_short_constant : Yields constant Constant.Short := by
  have hother : ∀ {c : Constant}, (∀ text, c ≠ .utf8 text) → c.Short :=
    fun h text htext => absurd htext (h text)
  refine (yields_true byte).bind fun tag _ => ?_
  split
  case h_1 =>
    refine yields_text.bind fun s hs => .pure ?_
    rintro text ⟨⟩
    exact hs
  all_goals
    first
    | exact yields_map fun _ => hother fun _ => by simp
    | exact (yields_true _).bind fun _ _ => yields_map fun _ => hother fun _ => by simp
    | exact yields_throw _

theorem yields_short_constants (slots : Nat) :
    Yields (constants slots) fun l => ∀ c ∈ l, c.Short := by
  have hunusable : Constant.Short .unusable := by
    rintro text ⟨⟩
  induction slots using Nat.strongRecOn with
  | ind slots ih =>
    cases slots with
    | zero => exact .pure (List.forall_mem_nil _)
    | succ slots =>
      rw [constants]
      refine yields_short_constant.bind fun c hc => ?_
      split
      · cases slots with
        | zero => exact yields_throw _
        | succ slots =>
          refine (ih slots (by omega)).bind fun rest hrest => .pure ?_
          exact List.forall_mem_cons.2 ⟨hc, List.forall_mem_cons.2 ⟨hunusable, hrest⟩⟩
      · exact (ih slots (by omega)).bind fun rest hrest => .pure (List.forall_mem_cons.2 ⟨hc, hrest⟩)

theorem yields_short_pool : Yields pool fun cs => ∀ c ∈ cs.toList, c.Short := by
  refine (yields_true short).bind fun count _ => ?_
  split
  · exact yields_throw _
  · next slots _ =>
    refine (yields_short_constants slots).bind fun rest hrest => .pure ?_
    refine List.forall_mem_cons.2 ⟨?_, hrest⟩
    rintro text ⟨⟩

end Decoder

namespace ClassFile

/-- No text of a class file that was read is too long to be written. -/
theorem short_of_parse {bytes : List UInt8} {c : ClassFile} (h : parse bytes = .ok c) :
    ∀ constant ∈ c.constants.toList, constant.Short := by
  have hyields : Decoder.Yields Decoder.classFile fun c =>
      ∀ constant ∈ c.constants.toList, constant.Short := by
    refine (Decoder.yields_true _).bind fun _ _ => ?_
    split
    · exact Decoder.yields_throw _
    · refine (Decoder.yields_true _).bind fun _ _ => (Decoder.yields_true _).bind fun _ _ => ?_
      refine Decoder.yields_short_pool.bind fun constants hconstants => ?_
      refine (Decoder.yields_true _).bind fun _ _ => (Decoder.yields_true _).bind fun _ _ => ?_
      refine (Decoder.yields_true _).bind fun _ _ => (Decoder.yields_true _).bind fun _ _ => ?_
      refine (Decoder.yields_true _).bind fun _ _ => (Decoder.yields_true _).bind fun _ _ => ?_
      exact Decoder.yields_map fun _ => hconstants
  obtain ⟨offset, hrun, -⟩ := parse_eq_ok h
  exact hyields _ _ _ hrun

/-- What is written of a well-formed class file is read as the class file if and only if its texts
are short. -/
theorem parse_toBytes_iff {c : ClassFile} (h : c.WellFormed) :
    parse c.toBytes = .ok c ↔ ∀ constant ∈ c.constants.toList, constant.Short :=
  ⟨short_of_parse, parse_toBytes h⟩

end ClassFile

end JarRemap
