import JarRemap.Proofs.ClassFile.Canonical
import JarRemap.Proofs.ClassFile.Interning

/-!
# Requests to a pool

A pool is asked for texts and pairs in any order. A request may find the pool full after a part of
what it needs was appended, and that part stays. Whatever is asked for, the pool stays sound and
loses nothing, and what was given once is given again.
-/

namespace JarRemap.Pool

/-- What a pool is asked for. -/
inductive Request where
  | text (text : String)
  | pair (name desc : String)
deriving DecidableEq, Repr

namespace Request

/-- The index of what is asked for, which is appended as far as the pool lacks it. -/
def serve : Request → WithPool UInt16
  | text s => internText s
  | pair name desc => internPair name desc

/-- Whether an index stands for what is asked for. -/
def StandsAt (cs : Constants) (index : UInt16) : Request → Prop
  | text s => cs.utf8? index = some s
  | pair name desc => cs.nameAndType? index = some (name, desc)

/-- Whether the tables of a pool lead to an index. -/
def Found (p : Pool) (index : UInt16) : Request → Prop
  | text s => p.texts[s]? = some index
  | pair name desc => ∃ n d, p.texts[name]? = some n ∧ p.texts[desc]? = some d ∧
      p.pairs[(n, d)]? = some index

end Request

/-- A pool after requests, whether or not each of them went well. -/
def serveAll (p : Pool) (requests : List Request) : Pool :=
  requests.foldl (fun p r => (r.serve p).2) p

/-- A later pool, which has all constants of an earlier one and finds all that it found. -/
structure Grows (p p' : Pool) : Prop where
  constants : p.Extends p'
  texts : ∀ (text : String) (index : UInt16), p.texts[text]? = some index →
    p'.texts[text]? = some index
  pairs : ∀ (key : UInt16 × UInt16) (index : UInt16), p.pairs[key]? = some index →
    p'.pairs[key]? = some index

/-- A computation that lets a sound pool grow by at most so many constants, and fails only if there
is no room for as many: the pool is full then. -/
def Serves {α : Type} (cost : Nat) (f : WithPool α) : Prop :=
  ∀ p r p', p.Sound → f p = (r, p') → p'.Sound ∧ p.Grows p' ∧ p'.size ≤ p.size + cost ∧
    ∀ e, r = .error e → e = .poolFull ∧ p'.size = limit ∧ limit < p.size + cost

namespace Grows

theorem refl (p : Pool) : p.Grows p := ⟨.refl p, fun _ _ h => h, fun _ _ h => h⟩

theorem trans {a b c : Pool} (hab : a.Grows b) (hbc : b.Grows c) : a.Grows c where
  constants := hab.constants.trans hbc.constants
  texts := fun text index h => hbc.texts text index (hab.texts text index h)
  pairs := fun key index h => hbc.pairs key index (hab.pairs key index h)

/-- What was found is found at the same index later on. -/
theorem found {p p' : Pool} (h : p.Grows p') {r : Request} {index : UInt16}
    (hfound : r.Found p index) : r.Found p' index := by
  cases r with
  | text s => exact h.texts s index hfound
  | pair name desc =>
    obtain ⟨n, d, hn, hd, hpair⟩ := hfound
    exact ⟨n, d, h.texts name n hn, h.texts desc d hd, h.pairs (n, d) index hpair⟩

/-- A constant keeps its index and its value. -/
theorem getElem? {p p' : Pool} (h : p.Grows p') {i : Nat} {c : Constant}
    (hc : p.constants[i]? = some c) : p'.constants[i]? = some c := by
  obtain ⟨more, hmore, -⟩ := h.constants
  rw [← Array.getElem?_toList] at hc ⊢
  obtain ⟨hlt, -⟩ := List.getElem?_eq_some_iff.1 hc
  rw [hmore, List.getElem?_append_left hlt, hc]

end Grows

namespace Serves

variable {α β : Type} {cost : Nat}

theorem pure (a : α) : Serves cost (Pure.pure a : WithPool α) := by
  intro p r p' hsound hrun
  cases hrun
  exact ⟨hsound, .refl p, Nat.le_add_right _ _, nofun⟩

theorem bind {more : Nat} {f : WithPool α} {g : α → WithPool β} (hf : Serves cost f)
    (hg : ∀ a, Serves more (g a)) : Serves (cost + more) (f >>= g) := by
  intro p r p' hsound hrun
  rcases hfirst : f p with ⟨first, next⟩
  obtain ⟨hnext, hgrows, hsize, hfail⟩ := hf p first next hsound hfirst
  cases first with
  | error e =>
    rw [bind_of_error hfirst] at hrun
    cases hrun
    refine ⟨hnext, hgrows, by omega, fun e' he' => ?_⟩
    cases he'
    obtain ⟨he, hfull, hroom⟩ := hfail e rfl
    exact ⟨he, hfull, by omega⟩
  | ok a =>
    rw [bind_of_ok hfirst] at hrun
    obtain ⟨hlast, hgrows', hsize', hfail'⟩ := hg a next r p' hnext hrun
    refine ⟨hlast, hgrows.trans hgrows', by omega, fun e he => ?_⟩
    obtain ⟨he, hfull, hroom⟩ := hfail' e he
    exact ⟨he, hfull, by omega⟩

theorem mono {more : Nat} {f : WithPool α} (h : Serves cost f) (hle : cost ≤ more) :
    Serves more f := by
  intro p r p' hsound hrun
  obtain ⟨hnext, hgrows, hsize, hfail⟩ := h p r p' hsound hrun
  refine ⟨hnext, hgrows, by omega, fun e he => ?_⟩
  obtain ⟨he, hfull, hroom⟩ := hfail e he
  exact ⟨he, hfull, by omega⟩

end Serves

section Table

variable {κ : Type} [BEq κ] [Hashable κ] [LawfulBEq κ] [LawfulHashable κ]
  {m : Std.HashMap κ UInt16} {key : κ}

theorem getElem?_insertIfNew_of_none (h : m[key]? = none) (index : UInt16) :
    (m.insertIfNew key index)[key]? = some index := by
  grind

theorem getElem?_insertIfNew_of_some {index : UInt16} (h : m[key]? = some index) (other : κ)
    (new : UInt16) : (m.insertIfNew other new)[key]? = some index := by
  grind

end Table

/-- Noting a constant changes no index that is noted already. -/
theorem grows_note (p : Pool) (index : Nat) (c : Constant) : p.Grows (p.note index c) := by
  refine ⟨⟨[], by simp⟩, fun text found hfound => ?_, fun key found hfound => ?_⟩
  · cases c
    case utf8 s => exact getElem?_insertIfNew_of_some hfound s _
    all_goals exact hfound
  · cases c
    case nameAndType name desc => exact getElem?_insertIfNew_of_some hfound (name, desc) _
    all_goals exact hfound

theorem serves_push {c : Constant} (hshared : c.isShared = true) : Serves 1 (push c) := by
  intro p r p' hsound hrun
  have hinterns := interns_push hshared p
  unfold push at hrun hinterns
  dsimp only at hrun hinterns
  split at hrun
  · next hfull =>
    cases hrun
    refine ⟨hsound, .refl p, Nat.le_succ _, fun e he => ?_⟩
    cases he
    have hsize : p.size = limit := Nat.le_antisymm hsound.size hfull
    exact ⟨rfl, hsize, by omega⟩
  · next hroom =>
    rw [if_neg hroom] at hinterns
    cases hrun
    obtain ⟨hsound', -, -⟩ := hinterns _ _ hsound rfl
    refine ⟨hsound', ?_, ?_, nofun⟩
    · have happended : p.Grows { p with constants := p.constants.push c } :=
        ⟨⟨[c], by simp, by simpa using hshared⟩, fun _ _ h => h, fun _ _ h => h⟩
      exact happended.trans (grows_note _ _ _)
    · simp [size]

theorem serves_internText (text : String) : Serves 1 (internText text) := by
  intro p r p' hsound hrun
  unfold internText at hrun
  split at hrun
  · next index _ => exact (Serves.pure index) p r p' hsound hrun
  · exact serves_push rfl p r p' hsound hrun

theorem serves_internPair (name desc : String) : Serves 3 (internPair name desc) := by
  have hget : Serves 0 (get : WithPool Pool) := by
    intro p r p' hsound hrun
    cases hrun
    exact ⟨hsound, .refl p, Nat.le_refl _, nofun⟩
  change Serves (1 + (1 + (0 + 1))) (internPair name desc)
  unfold internPair
  refine (serves_internText name).bind fun n => (serves_internText desc).bind fun d =>
    hget.bind fun p => ?_
  cases p.pairs[(n, d)]? with
  | some index => exact .pure index
  | none => exact serves_push rfl

theorem push_eq_ok {p p' : Pool} {c : Constant} {index : UInt16}
    (h : push c p = (.ok index, p')) :
    index = p.size.toUInt16 ∧ p' = { p with constants := p.constants.push c }.note p.size c := by
  unfold push at h
  dsimp only at h
  split at h
  · cases h
  · cases h
    exact ⟨rfl, rfl⟩

/-- A text that was asked for is found from then on. -/
theorem texts_of_internText {p p' : Pool} {text : String} {index : UInt16}
    (h : internText text p = (.ok index, p')) : p'.texts[text]? = some index := by
  unfold internText at h
  split at h
  · next hfound =>
    cases h
    exact hfound
  · next hnone =>
    obtain ⟨rfl, rfl⟩ := push_eq_ok h
    simp only [note]
    exact getElem?_insertIfNew_of_none hnone _

namespace Request

variable {p p' : Pool} {r : Request} {index : UInt16}

theorem serves (r : Request) : Serves 3 r.serve := by
  cases r with
  | text s => exact (serves_internText s).mono (by omega)
  | pair name desc => exact serves_internPair name desc

/-- What was asked for is found from then on. -/
theorem found_of_serve (hsound : p.Sound) (h : r.serve p = (.ok index, p')) :
    r.Found p' index := by
  cases r with
  | text s => exact texts_of_internText h
  | pair name desc =>
    obtain ⟨n, p₁, hname, h⟩ := bind_eq_ok h
    obtain ⟨d, p₂, hdesc, h⟩ := bind_eq_ok h
    obtain ⟨now, _, hget, h⟩ := bind_eq_ok h
    cases hget
    obtain ⟨hsound₁, -⟩ := serves_internText name p _ _ hsound hname
    obtain ⟨hsound₂, hgrows₂, -⟩ := serves_internText desc p₁ _ _ hsound₁ hdesc
    have hn := hgrows₂.texts name n (texts_of_internText hname)
    have hd := texts_of_internText hdesc
    cases hfound : p₂.pairs[(n, d)]? with
    | some found =>
      rw [hfound] at h
      cases h
      exact ⟨n, d, hn, hd, hfound⟩
    | none =>
      rw [hfound] at h
      obtain ⟨-, hgrows, -⟩ := serves_push rfl p₂ _ _ hsound₂ h
      refine ⟨n, d, hgrows.texts name n hn, hgrows.texts desc d hd, ?_⟩
      obtain ⟨rfl, rfl⟩ := push_eq_ok h
      simp only [note]
      exact getElem?_insertIfNew_of_none hfound _

/-- What is found is given, and nothing is appended. -/
theorem serve_of_found (h : r.Found p index) : r.serve p = (.ok index, p) := by
  have htext : ∀ {s : String} {i : UInt16}, p.texts[s]? = some i →
      internText s p = (.ok i, p) := by
    intro s i hfound
    rw [internText, hfound]
  cases r with
  | text s => exact htext h
  | pair name desc =>
    obtain ⟨n, d, hn, hd, hpair⟩ := h
    rw [serve, internPair, bind_of_ok (htext hn), bind_of_ok (htext hd),
      bind_of_ok (show (get : WithPool Pool) p = (.ok p, p) from rfl)]
    simp only [hpair]
    rfl

/-- An index that the tables of a sound pool lead to stands for what was asked for. -/
theorem standsAt_of_found (hsound : p.Sound) (h : r.Found p index) :
    r.StandsAt p.constants index := by
  cases r with
  | text s =>
    rw [StandsAt, Constants.utf8?, hsound.texts s index h]
  | pair name desc =>
    obtain ⟨n, d, hn, hd, hpair⟩ := h
    exact nameAndType?_eq (hsound.pairs n d index hpair) (hsound.texts name n hn)
      (hsound.texts desc d hd)

end Request

/-- Whatever is asked for, a sound pool stays sound and only grows. -/
theorem Sound.serveAll {p : Pool} (h : p.Sound) (requests : List Request) :
    (p.serveAll requests).Sound ∧ p.Grows (p.serveAll requests) := by
  induction requests generalizing p with
  | nil => exact ⟨h, .refl p⟩
  | cons r requests ih =>
    obtain ⟨hsound, hgrows, -⟩ := r.serves p _ _ h rfl
    obtain ⟨hsound', hgrows'⟩ := ih hsound
    exact ⟨hsound', hgrows.trans hgrows'⟩

/-- The pool of a class that was read stays sound, whatever is asked for and whether or not it is
given: no index is too large for two bytes, and no constant is lost or changed. A request fails only
if fewer slots are free than it may need, and leaves the pool full. If it goes well, the index that
is given stands for what was asked for; and however much is asked for later, the same request gives
the same index again and changes nothing. -/
theorem requests_keep_sound {bytes : List UInt8} {c : ClassFile}
    (hparse : ClassFile.parse bytes = .ok c) (requests : List Request) (r : Request) :
    let before := (ofConstants c.constants).serveAll requests
    let after := (r.serve before).2
    (before.size ≤ limit ∧ after.size ≤ limit) ∧
    (∀ (i : Nat) (constant : Constant), (c.constants[i]? = some constant →
      before.constants[i]? = some constant) ∧
      (before.constants[i]? = some constant → after.constants[i]? = some constant)) ∧
    (∀ e, (r.serve before).1 = .error e →
      e = .poolFull ∧ after.size = limit ∧ limit < before.size + 3) ∧
    ∀ index, (r.serve before).1 = .ok index → r.StandsAt after.constants index ∧
      ∀ later, r.serve (after.serveAll later) = (.ok index, after.serveAll later) := by
  obtain ⟨hstart, hconstants⟩ := sound_ofConstants (ClassFile.framed_of_parse hparse).size
  obtain ⟨hbefore, hgrown⟩ := hstart.serveAll requests
  intro before after
  obtain ⟨hafter, hgrows, -, hfail⟩ := r.serves before _ _ hbefore rfl
  refine ⟨⟨hbefore.size, hafter.size⟩, fun i constant => ⟨fun hi => ?_, hgrows.getElem?⟩, hfail,
    fun index hindex => ?_⟩
  · rw [← hconstants] at hi
    exact hgrown.getElem? hi
  · have hfound := Request.found_of_serve hbefore
      (show r.serve before = (.ok index, after) from Prod.ext hindex rfl)
    refine ⟨Request.standsAt_of_found hafter hfound, fun later => ?_⟩
    exact Request.serve_of_found ((hafter.serveAll later).2.found hfound)

open ClassFile in
/-- A class of seven constants is asked for a text, and then for a pair, which may take three
more. -/
theorem requests_keep_sound_sample :
    let before := (ofConstants sampleClass.constants).serveAll [.text "b"]
    let r : Request := .pair "a" "()V"
    parse (sampleBytes [0x61]) = .ok sampleClass ∧ ∃ index, (r.serve before).1 = .ok index ∧
      (r.serve before).2.constants.nameAndType? index = some ("a", "()V") ∧
      (r.serve before).2.constants[6]? = some (.utf8 "😀") ∧
      (r.serve ((r.serve before).2.serveAll [.text "c"])).1 = .ok index := by
  intro before r
  have hparse : parse (sampleBytes [0x61]) = .ok sampleClass := by decide +kernel
  obtain ⟨-, hkept, hfail, hgiven⟩ := requests_keep_sound hparse [.text "b"] r
  obtain ⟨hsound, hconstants⟩ :=
    sound_ofConstants (show sampleClass.constants.size ≤ limit by decide)
  obtain ⟨-, -, hsize, -⟩ := (Request.text "b").serves _ _ _ hsound rfl
  refine ⟨hparse, ?_⟩
  cases hserve : (r.serve before).1 with
  | error e =>
    have hroom := (hfail e hserve).2.2
    have hstart : (ofConstants sampleClass.constants).size = 7 := congrArg Array.size hconstants
    rw [hstart] at hsize
    exact absurd (Nat.lt_of_lt_of_le hroom (Nat.add_le_add_right hsize 3)) (by decide)
  | ok index =>
    obtain ⟨hstands, hagain⟩ := hgiven index hserve
    exact ⟨index, rfl, hstands, (hkept 6 _).2 ((hkept 6 _).1 rfl), by rw [hagain]⟩

end JarRemap.Pool
