import JarRemap.Builder
import Mathlib

/-!
# Calls of a builder

Single calls, runs of them, and the law that every run obeys.
-/

/-!
## Calls are all or nothing

An action on a builder keeps what it wrote before an error, so nothing in its type says that a
failed call leaves the builder alone. The proof follows the shape that every call has: a part that
only reads and may fail, then a part that writes and cannot fail. Runs of calls follow from that.
-/

namespace JarRemap

namespace Building

variable {α β : Type}

/-- An action that writes nothing, whether it succeeds or fails. -/
def ReadsOnly (m : Building α) : Prop := ∀ b, (m.run b).2 = b

/-- An action that cannot fail. -/
def Total (m : Building α) : Prop := ∀ b, ∃ a, (m.run b).1 = .ok a

/-- An action that writes nothing if it fails. -/
def AllOrNothing (m : Building α) : Prop := ∀ b e, (m.run b).1 = .error e → (m.run b).2 = b

theorem run_bind_ok {m : Building α} {f : α → Building β} {b : Builder} {a : α}
    (h : (m.run b).1 = .ok a) : ((m >>= f).run b) = (f a).run (m.run b).2 := by
  rcases hm : m.run b with ⟨r, next⟩
  rw [hm] at h
  simp only at h
  subst h
  simp only [ExceptT.run_bind]
  change (StateT.bind m.run _) b = _
  simp only [StateT.bind, hm]
  rfl

theorem run_bind_error {m : Building α} {f : α → Building β} {b : Builder} {e : BuildError}
    (h : (m.run b).1 = .error e) : ((m >>= f).run b) = (.error e, (m.run b).2) := by
  rcases hm : m.run b with ⟨r, next⟩
  rw [hm] at h
  simp only at h
  subst h
  simp only [ExceptT.run_bind]
  change (StateT.bind m.run _) b = _
  simp only [StateT.bind, hm]
  rfl

theorem ReadsOnly.allOrNothing {m : Building α} (h : ReadsOnly m) : AllOrNothing m :=
  fun b _ _ => h b

theorem Total.allOrNothing {m : Building α} (h : Total m) : AllOrNothing m := by
  intro b e he
  obtain ⟨a, ha⟩ := h b
  rw [ha] at he
  cases he

theorem readsOnly_pure (a : α) : ReadsOnly (pure a : Building α) := fun _ => rfl

theorem readsOnly_throw (e : BuildError) : ReadsOnly (throw e : Building α) := fun _ => rfl

theorem readsOnly_get : ReadsOnly (get : Building Builder) := fun _ => rfl

theorem readsOnly_liftExcept (x : Except BuildError α) :
    ReadsOnly (liftExcept x : Building α) := by
  intro b
  cases x <;> rfl

theorem total_set (b : Builder) : Total (set b : Building PUnit) := fun _ => ⟨_, rfl⟩

theorem total_modify (f : Builder → Builder) : Total (modify f : Building PUnit) :=
  fun _ => ⟨_, rfl⟩

theorem ReadsOnly.bind {m : Building α} {f : α → Building β} (hm : ReadsOnly m)
    (hf : ∀ a, ReadsOnly (f a)) : ReadsOnly (m >>= f) := by
  intro b
  cases h : (m.run b).1 with
  | ok a => rw [run_bind_ok h, hf a, hm b]
  | error e => rw [run_bind_error h, hm b]

theorem Total.bind {m : Building α} {f : α → Building β} (hm : Total m)
    (hf : ∀ a, Total (f a)) : Total (m >>= f) := by
  intro b
  obtain ⟨a, ha⟩ := hm b
  obtain ⟨c, hc⟩ := hf a (m.run b).2
  exact ⟨c, by rw [run_bind_ok ha, hc]⟩

/-- What only reads may come before what is all or nothing. -/
theorem ReadsOnly.bind_allOrNothing {m : Building α} {f : α → Building β} (hm : ReadsOnly m)
    (hf : ∀ a, AllOrNothing (f a)) : AllOrNothing (m >>= f) := by
  intro b e he
  cases h : (m.run b).1 with
  | ok a =>
    rw [run_bind_ok h, hm b] at he ⊢
    exact hf a b e he
  | error e' => rw [run_bind_error h, hm b]

/-- What cannot fail may come behind what is all or nothing. -/
theorem AllOrNothing.bind_total {m : Building α} {f : α → Building β} (hm : AllOrNothing m)
    (hf : ∀ a, Total (f a)) : AllOrNothing (m >>= f) := by
  intro b e he
  cases h : (m.run b).1 with
  | ok a =>
    obtain ⟨c, hc⟩ := hf a (m.run b).2
    rw [run_bind_ok h, hc] at he
    cases he
  | error e' => rw [run_bind_error h, hm b e' h]

theorem readsOnly_opened : ReadsOnly opened := by
  refine readsOnly_get.bind fun b => ?_
  split
  · exact readsOnly_throw _
  · exact readsOnly_pure _

theorem readsOnly_check (input : MappingInput) : ReadsOnly (check input) := by
  refine readsOnly_opened.bind fun b => ?_
  dsimp only
  split
  · exact readsOnly_pure _
  · exact readsOnly_throw _

theorem allOrNothing_chooseSide (side : Side) : AllOrNothing (chooseSide side) := by
  refine readsOnly_opened.bind_allOrNothing fun b => ?_
  split
  · exact (readsOnly_throw _).allOrNothing
  · exact (total_set _).allOrNothing

/-- All texts are staged before the first write. -/
theorem allOrNothing_mergeAll (input : MappingInput) (texts : List MappingText) :
    AllOrNothing (mergeAll input texts) := by
  refine readsOnly_opened.bind_allOrNothing fun b => ?_
  refine (readsOnly_liftExcept _).bind_allOrNothing fun t => ?_
  refine Total.allOrNothing ?_
  exact (total_modify _).bind fun _ => (total_modify _).bind fun _ => total_modify _

theorem allOrNothing_mergeContent (name : String) (c : Content) (input : MappingInput) :
    AllOrNothing (mergeContent name c input) := by
  refine (readsOnly_check input).bind_allOrNothing fun _ => ?_
  refine readsOnly_get.bind_allOrNothing fun b => ?_
  refine (readsOnly_liftExcept _).bind_allOrNothing fun texts => ?_
  exact allOrNothing_mergeAll input texts

theorem allOrNothing_mergeFile (d : Disk) (p : Path) (input : MappingInput) :
    AllOrNothing (mergeFile d p input) := by
  refine (readsOnly_check input).bind_allOrNothing fun _ => ?_
  refine (readsOnly_liftExcept _).bind_allOrNothing fun c => ?_
  exact allOrNothing_mergeContent p.text c input

theorem total_freeze : Total freeze :=
  (total_modify _).bind fun _ b => ⟨b.tree, rfl⟩

/-- No call writes anything before it is certain to succeed. -/
theorem allOrNothing_perform (c : Builder.Call) : AllOrNothing (perform c) := by
  cases c with
  | side side =>
    exact (allOrNothing_chooseSide side).bind_total fun _ _ => ⟨none, rfl⟩
  | content name c input =>
    exact (allOrNothing_mergeContent name c input).bind_total fun _ _ => ⟨none, rfl⟩
  | file d p input =>
    exact (allOrNothing_mergeFile d p input).bind_total fun _ _ => ⟨none, rfl⟩
  | freeze => exact total_freeze.allOrNothing.bind_total fun t _ => ⟨some t, rfl⟩

end Building

end JarRemap

/-!
## Runs of calls

What one call makes of a builder is said once, by cases: it chooses a side, commits a staged tree,
freezes, or fails and changes nothing. The laws of runs are read off these cases.
-/

namespace JarRemap

namespace Builder

/-- Put a staged tree in the place of the tree. -/
def commit (b : Builder) (t : MappingTree) : Builder :=
  { b with tree := t, merged := true, used := addAllNew b.used (b.added t) }

/-- The input of a call that merges a source, and the texts of the source. -/
def Call.source? (b : Builder) :
    Call → Option (MappingInput × Except BuildError (List MappingText))
  | content name c input => some (input, texts b.side name input.format c)
  | file d p input =>
      some (input, ((d.read p).mapError .disk).bind fun c => texts b.side p.text input.format c)
  | side _ | freeze => none

/-- What a call that succeeds can do to a builder. -/
inductive Success (b : Builder) : Call → Builder → Prop where
  | side (side : Side) (open_ : b.frozen = false) (first : b.merged = false) :
      Success b (.side side) { b with side }
  | merge {c : Call} {input : MappingInput} {texts : List MappingText} {t : MappingTree}
      (source : c.source? b = some (input, .ok texts)) (open_ : b.frozen = false)
      (asked : b.collisions input.adaptation.filter = [])
      (staged : b.stage input texts = .ok t) : Success b c (b.commit t)
  | freeze : Success b .freeze b.freeze

end Builder

namespace Building

open Builder (Call Success)

variable {α β : Type}

/-- A sequence that succeeds is two successes. -/
theorem run_bind_eq_ok {m : Building α} {f : α → Building β} {b next : Builder} {r : β}
    (h : (m >>= f).run b = (.ok r, next)) :
    ∃ a middle, m.run b = (.ok a, middle) ∧ (f a).run middle = (.ok r, next) := by
  rcases hm : m.run b with ⟨(e | a), middle⟩
  · rw [run_bind_error (e := e) (by rw [hm])] at h
    cases h
  · rw [run_bind_ok (a := a) (by rw [hm]), hm] at h
    exact ⟨a, middle, rfl, h⟩

theorem run_liftExcept_eq_ok {x : Except BuildError α} {b next : Builder} {a : α}
    (h : (liftExcept x : Building α).run b = (.ok a, next)) : x = .ok a ∧ next = b := by
  cases x with
  | error e => cases h
  | ok a' =>
    cases h
    exact ⟨rfl, rfl⟩

theorem run_opened_eq_ok {b next a : Builder} (h : opened.run b = (.ok a, next)) :
    b.frozen = false ∧ a = b ∧ next = b := by
  obtain ⟨now, middle, hget, hrest⟩ := run_bind_eq_ok h
  cases hget
  split at hrest
  · cases hrest
  · next hopen =>
    cases hrest
    exact ⟨by simpa using hopen, rfl, rfl⟩

theorem run_chooseSide_eq_ok {side : Side} {b next : Builder} {r : Unit}
    (h : (chooseSide side).run b = (.ok r, next)) :
    b.frozen = false ∧ b.merged = false ∧ next = { b with side } := by
  obtain ⟨now, middle, hopened, hrest⟩ := run_bind_eq_ok h
  obtain ⟨hopen, rfl, rfl⟩ := run_opened_eq_ok hopened
  split at hrest
  · cases hrest
  · next hfirst =>
    cases hrest
    exact ⟨hopen, by simpa using hfirst, rfl⟩

theorem run_check_eq_ok {input : MappingInput} {b next : Builder} {r : Unit}
    (h : (check input).run b = (.ok r, next)) :
    b.frozen = false ∧ b.collisions input.adaptation.filter = [] ∧ next = b := by
  obtain ⟨now, middle, hopened, hrest⟩ := run_bind_eq_ok h
  obtain ⟨hopen, rfl, rfl⟩ := run_opened_eq_ok hopened
  dsimp only at hrest
  split at hrest
  · next hnone =>
    cases hrest
    exact ⟨hopen, List.isEmpty_iff.1 hnone, rfl⟩
  · cases hrest

theorem run_mergeAll_eq_ok {input : MappingInput} {texts : List MappingText} {b next : Builder}
    {r : Unit} (h : (mergeAll input texts).run b = (.ok r, next)) :
    ∃ t, b.stage input texts = .ok t ∧ next = b.commit t := by
  obtain ⟨now, middle, hopened, hrest⟩ := run_bind_eq_ok h
  obtain ⟨-, rfl, rfl⟩ := run_opened_eq_ok hopened
  obtain ⟨t, middle', hlift, hwrites⟩ := run_bind_eq_ok hrest
  obtain ⟨hstage, rfl⟩ := run_liftExcept_eq_ok hlift
  cases hwrites
  exact ⟨t, hstage, rfl⟩

theorem run_mergeContent_eq_ok {name : String} {c : Content} {input : MappingInput}
    {b next : Builder} {r : Unit} (h : (mergeContent name c input).run b = (.ok r, next)) :
    b.frozen = false ∧ b.collisions input.adaptation.filter = [] ∧
      ∃ texts t, Builder.texts b.side name input.format c = .ok texts ∧
        b.stage input texts = .ok t ∧ next = b.commit t := by
  obtain ⟨_, middle, hcheck, hrest⟩ := run_bind_eq_ok h
  obtain ⟨hopen, hasked, rfl⟩ := run_check_eq_ok hcheck
  obtain ⟨now, middle', hget, hrest⟩ := run_bind_eq_ok hrest
  cases hget
  obtain ⟨texts, middle', hlift, hmerge⟩ := run_bind_eq_ok hrest
  obtain ⟨htexts, rfl⟩ := run_liftExcept_eq_ok hlift
  obtain ⟨t, hstage, hnext⟩ := run_mergeAll_eq_ok hmerge
  exact ⟨hopen, hasked, texts, t, htexts, hstage, hnext⟩

/-- A call that succeeds does one of the things a call can do. -/
theorem success_of_run {c : Call} {b next : Builder} {r : Option MappingTree}
    (h : (perform c).run b = (.ok r, next)) : Success b c next := by
  cases c with
  | side side =>
    obtain ⟨_, middle, hchoose, hreturn⟩ := run_bind_eq_ok h
    cases hreturn
    obtain ⟨hopen, hfirst, rfl⟩ := run_chooseSide_eq_ok hchoose
    exact .side side hopen hfirst
  | content name c input =>
    obtain ⟨_, middle, hmerge, hreturn⟩ := run_bind_eq_ok h
    cases hreturn
    obtain ⟨hopen, hasked, texts, t, htexts, hstage, rfl⟩ := run_mergeContent_eq_ok hmerge
    exact .merge (by rw [Call.source?, htexts]) hopen hasked hstage
  | file d p input =>
    obtain ⟨_, middle, hfile, hreturn⟩ := run_bind_eq_ok h
    cases hreturn
    obtain ⟨_, middle, hcheck, hrest⟩ := run_bind_eq_ok hfile
    obtain ⟨-, -, rfl⟩ := run_check_eq_ok hcheck
    obtain ⟨c, middle', hlift, hmerge⟩ := run_bind_eq_ok hrest
    obtain ⟨hread, rfl⟩ := run_liftExcept_eq_ok hlift
    obtain ⟨hopen, hasked, texts, t, htexts, hstage, rfl⟩ := run_mergeContent_eq_ok hmerge
    refine .merge ?_ hopen hasked hstage
    rw [Call.source?, hread]
    exact congrArg (fun x => some (input, x)) htexts
  | freeze =>
    cases h
    exact .freeze

end Building

namespace Builder

theorem run_append (b : Builder) (calls more : List Call) :
    b.run (calls ++ more) = (b.run calls).run more :=
  List.foldl_append

theorem run_cons (b : Builder) (c : Call) (calls : List Call) :
    b.run (c :: calls) = (b.step c).1.run calls :=
  rfl

/-- A failed call leaves the builder as it was. -/
theorem step_fst_of_error {b : Builder} {c : Call} {e : BuildError}
    (h : (b.step c).2 = some e) : (b.step c).1 = b := by
  have hkept := Building.allOrNothing_perform c b
  unfold step at h ⊢
  rcases hrun : (Building.perform c).run b with ⟨(e' | r), next⟩
  · rw [hrun] at hkept
    exact hkept e' rfl
  · rw [hrun] at h
    cases h

theorem success_of_step {b : Builder} {c : Call} (h : (b.step c).2 = none) :
    Success b c (b.step c).1 := by
  unfold step at h ⊢
  rcases hrun : (Building.perform c).run b with ⟨(e | r), next⟩
  · rw [hrun] at h
    cases h
  · exact Building.success_of_run hrun

/-- A call fails and changes nothing, or it succeeds. -/
theorem step_cases (b : Builder) (c : Call) :
    (b.step c).1 = b ∨ Success b c (b.step c).1 := by
  cases h : (b.step c).2 with
  | some e => exact .inl (step_fst_of_error h)
  | none => exact .inr (success_of_step h)

/-- What every success keeps, a run keeps. -/
theorem run_invariant {P : Builder → Prop} (hstep : ∀ b c next, P b → Success b c next → P next)
    {b : Builder} (hb : P b) (calls : List Call) : P (b.run calls) := by
  induction calls generalizing b with
  | nil => exact hb
  | cons c calls ih =>
    rw [run_cons]
    rcases step_cases b c with h | h
    · rw [h]
      exact ih hb
    · exact ih (hstep b c _ hb h)

/-- The side is locked once something is merged. -/
theorem run_side_of_merged {b : Builder} (hb : b.merged = true) (calls : List Call) :
    (b.run calls).side = b.side := by
  refine (run_invariant (P := fun now => now.merged = true ∧ now.side = b.side) ?_ ⟨hb, rfl⟩
    calls).2
  rintro now c next ⟨hmerged, hside⟩ hsuccess
  cases hsuccess with
  | side side _ first =>
    rw [hmerged] at first
    cases first
  | merge => exact ⟨rfl, hside⟩
  | freeze => exact ⟨hmerged, hside⟩

/-- A frozen builder stays as it is. -/
theorem run_of_frozen {b : Builder} (hb : b.frozen = true) (calls : List Call) :
    b.run calls = b := by
  refine run_invariant (P := fun now => now = b) ?_ rfl calls
  rintro now c next rfl hsuccess
  cases hsuccess with
  | side _ open_ _ =>
    rw [hb] at open_
    cases open_
  | merge _ open_ _ _ =>
    rw [hb] at open_
    cases open_
  | freeze =>
    unfold freeze
    rw [← hb]

/-- A merge that succeeded keeps the side and locks it. -/
theorem Success.merged_of_ingests {b next : Builder} {c : Call} (h : Success b c next)
    (hc : c.ingests = true) : next.merged = true ∧ next.side = b.side := by
  cases h with
  | side => cases hc
  | merge => exact ⟨rfl, rfl⟩
  | freeze => cases hc

namespace Sample

/-- A text as the bytes of a file. -/
def bytesOf (text : String) : List UInt8 := text.toUTF8.data.toList

/-- A source that is keyed by a namespace and kept as it is. -/
def keyedBy (name : String) : MappingInput := { adaptation := { source := name } }

/-- A first source, of one class. -/
def first : Call :=
  .content "first.tiny" (.bytes (bytesOf "v1\tofficial\tsearge\nCLASS\ta\tA\n"))
    (keyedBy "official")

end Sample

end Builder

end JarRemap

/-!
## What a run of calls can change

The main law of builders: a call that fails changes nothing, whatever it failed at; the side is
fixed once a source is in, and everything is fixed once the tree was asked for.
-/

namespace JarRemap

namespace Builder

/-- In every state a builder can get into, a failed call changes nothing. A merge that succeeds locks
the side for the rest of the run. From the first freeze on nothing changes, and every freeze is
answered with the tree of the first. -/
theorem run_all_or_nothing (calls : List Call) :
    (∀ c e, ((run {} calls).step c).2 = some e → ((run {} calls).step c).1 = run {} calls) ∧
    (∀ c later, c.ingests = true → ((run {} calls).step c).2 = none →
      (run {} (calls ++ c :: later)).side = (run {} calls).side) ∧
    ∀ later, run {} (calls ++ .freeze :: later) = run {} (calls ++ [.freeze]) ∧
      Building.freeze.run (run {} (calls ++ .freeze :: later)) =
        (.ok (run {} calls).tree, run {} (calls ++ [.freeze])) ∧
      (Building.freeze.run (run {} calls)).1 = .ok (run {} calls).tree := by
  refine ⟨fun c e h => step_fst_of_error h, ?_, ?_⟩
  · intro c later hc hok
    obtain ⟨hmerged, hside⟩ := (success_of_step hok).merged_of_ingests hc
    rw [run_append, run_cons, run_side_of_merged hmerged, hside]
  · intro later
    have hfrozen : run {} (calls ++ .freeze :: later) = (run {} calls).freeze := by
      rw [run_append, run_cons]
      exact run_of_frozen rfl later
    have hfirst : run {} (calls ++ [.freeze]) = (run {} calls).freeze := by
      rw [run_append]
      rfl
    rw [hfrozen, hfirst]
    exact ⟨rfl, rfl, rfl⟩

namespace Sample

/-- The second of two texts cannot be read, after the first was merged into the copy. -/
def broken : Call :=
  .content "second.zip"
    (.archive [⟨"good.tiny", bytesOf "v1\tofficial\tmcp\nCLASS\ta\tB\n"⟩,
      ⟨"late.tiny", bytesOf "v1\tofficial\tmcp\nCLASS\ta\tC\nOTHER\n"⟩])
    (keyedBy "official")

/-- The good text alone. -/
def sound : Call :=
  .content "second.zip" (.archive [⟨"good.tiny", bytesOf "v1\tofficial\tmcp\nCLASS\ta\tB\n"⟩])
    (keyedBy "official")

end Sample

open Sample in
theorem run_all_or_nothing_broken_archive :
    ((run {} [.side .client, first]).step broken).1 = run {} [.side .client, first] ∧
    (run {} [.side .client, first, sound, .side .server, .freeze]).side = .client ∧
    (Building.freeze.run (run {} [.side .client, first, .freeze, sound, .freeze])).1 =
      .ok (run {} [.side .client, first]).tree := by
  have hbroken : ((run {} [.side .client, first]).step broken).2 =
      some (.format (.malformed .tiny ⟨3, .unknownEntry "OTHER"⟩)) := by cbv
  have hsound : ((run {} [.side .client, first]).step sound).2 = none := by cbv
  have hclient : (run {} [.side .client, first]).side = .client := by cbv
  obtain ⟨hfail, hside, hview⟩ := run_all_or_nothing [.side .client, first]
  refine ⟨hfail broken _ hbroken, ?_, ?_⟩
  · exact (hside sound [.side .server, .freeze] rfl hsound).trans hclient
  · exact congrArg Prod.fst (hview [sound, .freeze]).2.1

end Builder

end JarRemap
