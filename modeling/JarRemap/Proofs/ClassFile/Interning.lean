import JarRemap.ClassFile.Pool
import JarRemap.Proofs.Run.Steps

/-!
# Pools only grow

Interning appends texts and pairs behind a pool and changes nothing in it, so an index keeps what it
stands for, and the index that is given stands for what was interned.
-/

namespace JarRemap

namespace Constant

/-- Whether a constant may serve several symbols, so that it is never replaced. -/
def isShared : Constant → Bool
  | utf8 _ | nameAndType .. => true
  | _ => false

end Constant

namespace Pool

/-- The tables of a pool tell the truth, and every index fits into two bytes. -/
structure Sound (p : Pool) : Prop where
  size : p.size ≤ limit
  texts : ∀ text index, p.texts[text]? = some index → p.constants.at? index = some (.utf8 text)
  pairs : ∀ name desc index, p.pairs[(name, desc)]? = some index →
    p.constants.at? index = some (.nameAndType name desc)

/-- A later pool has the constants of an earlier one, and texts and pairs behind them. -/
def Extends (p p' : Pool) : Prop :=
  ∃ more : List Constant, p'.constants.toList = p.constants.toList ++ more ∧
    ∀ c ∈ more, c.isShared = true

/-- A computation that extends a pool, and what is true of its value in the extended pool. -/
def Interns {α : Type} (f : WithPool α) (Q : Constants → α → Prop) : Prop :=
  ∀ p a p', p.Sound → f p = (.ok a, p') → p'.Sound ∧ p.Extends p' ∧ Q p'.constants a

theorem Extends.refl (p : Pool) : p.Extends p := ⟨[], by simp⟩

theorem Extends.trans {a b c : Pool} (hab : a.Extends b) (hbc : b.Extends c) : a.Extends c := by
  obtain ⟨more, hmore, hshared⟩ := hab
  obtain ⟨rest, hrest, hshared'⟩ := hbc
  refine ⟨more ++ rest, by rw [hrest, hmore, List.append_assoc], ?_⟩
  intro constant hconstant
  rcases List.mem_append.1 hconstant with h | h
  · exact hshared constant h
  · exact hshared' constant h

theorem Extends.at? {p p' : Pool} (h : p.Extends p') {index : UInt16} {c : Constant}
    (hc : p.constants.at? index = some c) : p'.constants.at? index = some c := by
  obtain ⟨more, hmore, -⟩ := h
  rw [Constants.at?, ← Array.getElem?_toList] at hc ⊢
  obtain ⟨hlt, -⟩ := List.getElem?_eq_some_iff.1 hc
  rw [hmore, List.getElem?_append_left hlt, hc]

theorem Interns.bind {α β : Type} {f : WithPool α} {g : α → WithPool β} {Q : Constants → α → Prop}
    {S : Constants → β → Prop} (hf : Interns f Q)
    (hg : ∀ p a b p', p.Sound → Q p.constants a → g a p = (.ok b, p') →
      p'.Sound ∧ p.Extends p' ∧ S p'.constants b) : Interns (f >>= g) S := by
  intro p b p' hsound hrun
  obtain ⟨a, next, hfirst, hrun⟩ := bind_eq_ok hrun
  obtain ⟨hnext, hextends, hQ⟩ := hf p a next hsound hfirst
  obtain ⟨hsound', hextends', hS⟩ := hg next a b p' hnext hQ hrun
  exact ⟨hsound', hextends.trans hextends', hS⟩

theorem interns_pure {α : Type} {Q : Constants → α → Prop} {a : α} (h : ∀ cs, Q cs a) :
    Interns (pure a) Q := by
  rintro p b p' hsound hrun
  cases hrun
  exact ⟨hsound, .refl p, h p.constants⟩

@[simp] theorem constants_note (p : Pool) (index : Nat) (c : Constant) :
    (p.note index c).constants = p.constants := by
  unfold note
  split <;> rfl

/-- Noting the constant at an index keeps the tables true. -/
theorem Sound.note {p : Pool} (h : p.Sound) {index : Nat} {c : Constant}
    (hc : p.constants.at? index.toUInt16 = some c) : (p.note index c).Sound := by
  unfold Pool.note
  split
  · refine ⟨h.size, ?_, h.pairs⟩
    intro text index' hindex
    rw [Std.HashMap.getElem?_insertIfNew] at hindex
    split at hindex
    · next hnew =>
      cases hindex
      rw [← eq_of_beq hnew.1]
      exact hc
    · exact h.texts text index' hindex
  · refine ⟨h.size, h.texts, ?_⟩
    intro name desc index' hindex
    rw [Std.HashMap.getElem?_insertIfNew] at hindex
    split at hindex
    · next hnew =>
      cases hindex
      cases eq_of_beq hnew.1
      exact hc
    · exact h.pairs name desc index' hindex
  · exact h

/-- A text or a pair that is appended stands at the index that is given. -/
theorem interns_push {c : Constant} (hshared : c.isShared = true) :
    Interns (push c) fun cs index => cs.at? index = some c := by
  intro p index p' hsound hrun
  unfold push at hrun
  dsimp only at hrun
  split at hrun
  · cases hrun
  · next hroom =>
    cases hrun
    have hsize : p.size < 65535 := Nat.lt_of_not_le hroom
    have hindex : p.size.toUInt16.toNat = p.constants.size := Nat.mod_eq_of_lt (by omega)
    have hextends : p.Extends { p with constants := p.constants.push c } :=
      ⟨[c], by simp, by simpa using hshared⟩
    have hat : ({ p with constants := p.constants.push c } : Pool).constants.at? p.size.toUInt16 =
        some c := by
      rw [Constants.at?, hindex]
      simp
    have hpushed : ({ p with constants := p.constants.push c } : Pool).Sound := by
      refine ⟨?_, fun text i hi => hextends.at? (hsound.texts text i hi),
        fun name desc i hi => hextends.at? (hsound.pairs name desc i hi)⟩
      simp only [size, Array.size_push]
      exact Nat.succ_le_of_lt hsize
    refine ⟨hpushed.note hat, ?_, ?_⟩
    · simpa [Extends] using hextends
    · simpa using hat

/-- An interned text stands at the index that is given. -/
theorem interns_internText (text : String) :
    Interns (internText text) fun cs index => cs.at? index = some (.utf8 text) := by
  intro p index p' hsound hrun
  unfold internText at hrun
  split at hrun
  · next hfound =>
    cases hrun
    exact ⟨hsound, .refl p, hsound.texts text _ hfound⟩
  · exact interns_push rfl p index p' hsound hrun

theorem nameAndType?_eq {cs : Constants} {index n d : UInt16} {name desc : String}
    (hindex : cs.at? index = some (.nameAndType n d)) (hn : cs.at? n = some (.utf8 name))
    (hd : cs.at? d = some (.utf8 desc)) : cs.nameAndType? index = some (name, desc) := by
  rw [Constants.nameAndType?, hindex]
  simp [Constants.utf8?, hn, hd]

/-- An interned pair stands at the index that is given. -/
theorem interns_internPair (name desc : String) :
    Interns (internPair name desc) fun cs index => cs.nameAndType? index = some (name, desc) := by
  refine (interns_internText name).bind fun p n index p' hsound hn hrun => ?_
  obtain ⟨d, next, hfirst, hrun⟩ := bind_eq_ok hrun
  obtain ⟨hnext, hextends, hd⟩ := interns_internText desc p d next hsound hfirst
  obtain ⟨now, same, hget, hrun⟩ := bind_eq_ok hrun
  cases hget
  have hn := hextends.at? hn
  cases hfound : next.pairs[(n, d)]? with
  | some found =>
    rw [hfound] at hrun
    cases hrun
    exact ⟨hnext, hextends, nameAndType?_eq (hnext.pairs n d index hfound) hn hd⟩
  | none =>
    rw [hfound] at hrun
    obtain ⟨hsound', hextends', hindex⟩ := interns_push rfl next index p' hnext hrun
    exact ⟨hsound', hextends.trans hextends',
      nameAndType?_eq hindex (hextends'.at? hn) (hextends'.at? hd)⟩

/-- The pool of constants that fit is sound. -/
theorem sound_ofConstants {constants : Constants} (h : constants.size ≤ limit) :
    (ofConstants constants).Sound ∧ (ofConstants constants).constants = constants := by
  have hnote : ∀ (items : List (Constant × Nat)) (p : Pool),
      (∀ item ∈ items, p.constants.at? item.2.toUInt16 = some item.1) → p.Sound →
        (items.foldl (fun p item => p.note item.2 item.1) p).Sound ∧
          (items.foldl (fun p item => p.note item.2 item.1) p).constants = p.constants := by
    intro items
    induction items with
    | nil => exact fun p _ hp => ⟨hp, rfl⟩
    | cons item items ih =>
      intro p hitems hp
      have hrest := ih (p.note item.2 item.1)
        (fun other hother => by
          rw [constants_note]
          exact hitems other (List.mem_cons_of_mem item hother))
        (hp.note (hitems item List.mem_cons_self))
      rwa [constants_note] at hrest
  have hempty : Sound { constants } := by
    refine ⟨h, fun text index hindex => ?_, fun name desc index hindex => ?_⟩
    · simp at hindex
    · simp at hindex
  refine hnote constants.toList.zipIdx { constants } ?_ hempty
  rintro ⟨c, index⟩ hitem
  have hc := List.mk_mem_zipIdx_iff_getElem?.1 hitem
  rw [Array.getElem?_toList] at hc
  have hlt : index < constants.size := (Array.getElem?_eq_some_iff.1 hc).1
  have hindex : index.toUInt16.toNat = index :=
    Nat.mod_eq_of_lt (Nat.lt_of_lt_of_le hlt (Nat.le_succ_of_le h))
  rw [Constants.at?, hindex, hc]

end Pool

end JarRemap

/-!
## Interning what is there

In a pool without equal texts or pairs, every text and every pair is found at the one index it
stands at, so interning what is there already gives that index and appends nothing. In any other
pool, every text is found somewhere, so nothing is appended but pairs of the texts that are there.
-/

namespace JarRemap

/-- Constants among which no text and no pair occurs twice. -/
def Constants.Distinct (cs : Constants) : Prop :=
  ∀ (i j : Nat) (c : Constant), c.isShared = true → cs[i]? = some c → cs[j]? = some c → i = j

namespace Pool

/-- The tables of a pool find every text and every pair where it stands. -/
structure Settled (p : Pool) : Prop where
  texts : ∀ index text, p.constants.at? index = some (.utf8 text) → p.texts[text]? = some index
  pairs : ∀ index name desc, p.constants.at? index = some (.nameAndType name desc) →
    p.pairs[(name, desc)]? = some index

section Interning

variable {p : Pool} {index : UInt16}

theorem at?_of_utf8? {cs : Constants} {text : String} (h : cs.utf8? index = some text) :
    cs.at? index = some (.utf8 text) := by
  unfold Constants.utf8? at h
  split at h
  · next found hfound =>
    cases h
    exact hfound
  · cases h

end Interning

/-- Whether the tables of a pool find a text or a pair somewhere. -/
def Notes (p : Pool) : Constant → Prop
  | .utf8 text => (p.texts[text]?).isSome
  | .nameAndType name desc => (p.pairs[(name, desc)]?).isSome
  | _ => True

theorem Notes.note {p : Pool} {c : Constant} (h : p.Notes c) (index : Nat) (other : Constant) :
    (p.note index other).Notes c := by
  cases c
  case utf8 text => cases other <;> simp_all [Pool.note, Notes]
  case nameAndType name desc => cases other <;> simp_all [Pool.note, Notes]
  all_goals trivial

/-- A pool that finds every text, and has no other texts and no other classes than there were at
first. Only pairs may be new. -/
structure Calm (p : Pool) (start : Constants) : Prop where
  noted : ∀ index text, p.constants.utf8? index = some text → (p.texts[text]?).isSome
  size : start.size ≤ p.size
  texts : ∀ index, p.constants.utf8? index = start.utf8? index
  classes : ∀ index, p.constants.className? index = start.className? index
  pairs : ∀ index, index.toNat < start.size →
    p.constants.nameAndType? index = start.nameAndType? index

section Calm

variable {start : Constants} {p p' : Pool}

theorem Settled.calm (h : p.Settled) : p.Calm p.constants := by
  refine ⟨fun index text htext => ?_, Nat.le_refl _, fun _ => rfl, fun _ => rfl, fun _ _ => rfl⟩
  rw [h.texts index text (at?_of_utf8? htext)]
  rfl

/-- A text that a calm pool has is not appended. -/
theorem Calm.internText (h : p.Calm start) {index found : UInt16} {text : String}
    (htext : p.constants.utf8? index = some text) (hrun : internText text p = (.ok found, p')) :
    p' = p := by
  obtain ⟨noted, hnoted⟩ := Option.isSome_iff_exists.1 (h.noted index text htext)
  rw [Pool.internText, hnoted] at hrun
  cases hrun
  rfl

/-- A pair of texts is nothing that a calm pool cannot have. -/
theorem Calm.push_pair (h : p.Calm start) {n d index : UInt16}
    (hrun : push (.nameAndType n d) p = (.ok index, p')) : p'.Calm start := by
  unfold push at hrun
  dsimp only at hrun
  split at hrun
  · cases hrun
  · cases hrun
    generalize hcs : p.constants.push (.nameAndType n d) = cs
    have hat : ∀ i : UInt16, Constants.at? cs i =
        if i.toNat = p.size then some (.nameAndType n d) else p.constants.at? i := by
      intro i
      rw [Constants.at?, Constants.at?, ← hcs, Array.getElem?_push]
      rfl
    have hbehind : ∀ i : UInt16, i.toNat = p.size → p.constants.at? i = none := fun i hi => by
      rw [Constants.at?, hi]
      exact Array.getElem?_eq_none (Nat.le_refl _)
    have htexts : ∀ i, Constants.utf8? cs i = p.constants.utf8? i := by
      intro i
      rw [Constants.utf8?, Constants.utf8?, hat]
      by_cases hi : i.toNat = p.size
      · rw [if_pos hi, hbehind i hi]
      · rw [if_neg hi]
    have hclasses : ∀ i, Constants.className? cs i = p.constants.className? i := by
      intro i
      rw [Constants.className?, Constants.className?, hat]
      by_cases hi : i.toNat = p.size
      · rw [if_pos hi, hbehind i hi]
      · rw [if_neg hi]
        simp only [htexts]
    have hpairs : ∀ i : UInt16, i.toNat < p.size →
        Constants.nameAndType? cs i = p.constants.nameAndType? i := by
      intro i hi
      rw [Constants.nameAndType?, Constants.nameAndType?, hat, if_neg (Nat.ne_of_lt hi)]
      simp only [htexts]
    refine ⟨fun i text htext => ?_, ?_, fun i => ?_, fun i => ?_, fun i hi => ?_⟩
    · exact h.noted i text ((htexts i).symm.trans htext)
    · refine Nat.le_trans h.size ?_
      change p.constants.size ≤ cs.size
      rw [← hcs, Array.size_push]
      exact Nat.le_succ _
    · exact (htexts i).trans (h.texts i)
    · exact (hclasses i).trans (h.classes i)
    · exact (hpairs i (Nat.lt_of_lt_of_le hi h.size)).trans (h.pairs i hi)

/-- Interning a pair of texts that are there keeps a pool calm. -/
theorem Calm.internPair (h : p.Calm start) {index found : UInt16} {name desc : String}
    (hpair : p.constants.nameAndType? index = some (name, desc))
    (hrun : internPair name desc p = (.ok found, p')) : p'.Calm start := by
  unfold Constants.nameAndType? at hpair
  split at hpair
  · obtain ⟨_, hname, hpair⟩ := Option.bind_eq_some_iff.1 hpair
    obtain ⟨_, hdesc, hpair⟩ := Option.bind_eq_some_iff.1 hpair
    cases hpair
    obtain ⟨n, p₁, hfirst, hrest⟩ := bind_eq_ok hrun
    rw [h.internText hname hfirst] at hrest
    obtain ⟨d, p₂, hsecond, hlast⟩ := bind_eq_ok hrest
    rw [h.internText hdesc hsecond] at hlast
    obtain ⟨_, _, hget, hlast⟩ := bind_eq_ok hlast
    cases hget
    cases hnoted : p.pairs[(n, d)]? with
    | some noted =>
      rw [hnoted] at hlast
      cases hlast
      exact h
    | none =>
      rw [hnoted] at hlast
      exact h.push_pair hlast
  · cases hpair

end Calm

end Pool

end JarRemap
