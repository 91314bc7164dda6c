import JarRemap.Proofs.Disk.Places
import JarRemap.Proofs.Run.Steps
import JarRemap.Run

/-!
# Guards

A part of a run that writes to one path only, with a guard around it, leaves nothing at the path if
it fails, however far it came. The guard changes neither the error nor a result.
-/

namespace JarRemap.Run

open Disk (ChangesOnly)

variable {α β : Type} {p : Path} {P Q : Path → Prop} {s s' : RunState} {e : RunError}

theorem look_eq (f : Disk → Except RunError α) (s : RunState) : look f s = (f s.disk, s) := by
  rw [look, bind_of_ok (show (get : Run RunState) s = (.ok s, s) from rfl)]
  cases f s.disk <;> rfl

theorem look_of_ok {f : Disk → Except RunError α} {a : α} (h : f s.disk = .ok a) :
    look f s = (.ok a, s) := by rw [look_eq, h]

theorem look_of_error {f : Disk → Except RunError α} (h : f s.disk = .error e) :
    look f s = (.error e, s) := by rw [look_eq, h]

theorem look_eq_ok {f : Disk → Except RunError α} {a : α} (h : look f s = (.ok a, s')) :
    f s.disk = .ok a ∧ s' = s := by
  rw [look_eq] at h
  exact ⟨(Prod.mk.inj h).1, (Prod.mk.inj h).2.symm⟩

theorem look_eq_error {f : Disk → Except RunError α} (h : look f s = (.error e, s')) :
    s' = s := by
  rw [look_eq] at h
  exact (Prod.mk.inj h).2.symm

theorem change_of_ok {f : Disk → Except DiskError Disk} {d : Disk} (h : f s.disk = .ok d) :
    change f s = (.ok (), { s with disk := d }) := by
  have hlook : look (fun d => (f d).mapError .disk) s = (.ok d, s) :=
    look_of_ok (by rw [h]; rfl)
  exact bind_of_ok hlook

theorem change_of_error {f : Disk → Except DiskError Disk} {e : DiskError}
    (h : f s.disk = .error e) : change f s = (.error (.disk e), s) := by
  have hlook : look (fun d => (f d).mapError .disk) s = (.error (.disk e), s) :=
    look_of_error (by rw [h]; rfl)
  exact bind_of_error hlook

theorem change_eq_ok {f : Disk → Except DiskError Disk} {u : Unit}
    (h : change f s = (.ok u, s')) : f s.disk = .ok s'.disk := by
  cases hf : f s.disk with
  | ok d =>
    rw [change_of_ok hf] at h
    cases h
    rfl
  | error e =>
    rw [change_of_error hf] at h
    cases h

/-- A part of a run that changes nothing but the files at some paths. -/
def Only (P : Path → Prop) (part : Run α) : Prop := ∀ s, ChangesOnly P s.disk (part s).2.disk

namespace Only

theorem changesOnly {part : Run α} {r : Except RunError α} (h : Only P part)
    (hpart : part s = (r, s')) : ChangesOnly P s.disk s'.disk := by
  have hchanges := h s
  rwa [hpart] at hchanges

theorem mono {part : Run α} (h : Only P part) (hPQ : ∀ p, P p → Q p) : Only Q part :=
  fun s => (h s).mono hPQ

theorem pure (a : α) : Only P (Pure.pure a : Run α) := fun s => .refl P s.disk

theorem bind {part : Run α} {f : α → Run β} (h : Only P part) (hf : ∀ a, Only P (f a)) :
    Only P (part >>= f) := by
  intro s
  rcases hpart : part s with ⟨r, next⟩
  cases r with
  | error e =>
    rw [bind_of_error hpart]
    exact h.changesOnly hpart
  | ok a =>
    rw [bind_of_ok hpart]
    exact (h.changesOnly hpart).trans (hf a next)

/-- A loop changes nothing but what its steps change. -/
theorem foldlM {step : β → α → Run β} {l : List α} (h : ∀ a ∈ l, ∀ b, Only P (step b a)) (b : β) :
    Only P (l.foldlM step b) := by
  induction l generalizing b with
  | nil => exact .pure b
  | cons a l ih =>
    rw [List.foldlM_cons]
    exact (h a List.mem_cons_self b).bind fun b' =>
      ih (fun a' ha' => h a' (List.mem_cons_of_mem a ha')) b'

theorem look (f : Disk → Except RunError α) : Only P (look f) := by
  intro s
  rw [look_eq]
  exact .refl P s.disk

theorem change {f : Disk → Except DiskError Disk}
    (h : ∀ d d', f d = .ok d' → ChangesOnly P d d') : Only P (change f) := by
  intro s
  cases hf : f s.disk with
  | error e =>
    rw [change_of_error hf]
    exact .refl P s.disk
  | ok d =>
    rw [change_of_ok hf]
    exact h s.disk d hf

/-- What a run notes down is on no disk. -/
theorem note (f : RunState → List (String × String)) :
    Only P (modify fun s => { s with requests := f s } : Run Unit) := fun s => .refl P s.disk

theorem write (c : Content) : Only (· = p) (Run.change (·.write p c)) :=
  .change fun _ _ h => (Disk.write_eq_ok h).1

theorem clear : Only (· = p) (Run.change (·.clear p)) := .change fun _ _ h => (Disk.clear_eq_ok h).1

end Only

theorem guarding_of_ok {part : Run α} {a : α} (h : part s = (.ok a, s')) :
    guarding p part s = (.ok a, s') := by
  simp only [guarding, tryCatch, tryCatchThe, MonadExceptOf.tryCatch, ExceptT.tryCatch, ExceptT.mk,
    bind, StateT.bind]
  rw [h]
  rfl

theorem guarding_of_error {part : Run α} (h : part s = (.error e, s')) :
    guarding p part s = (.error e, { s' with disk := s'.disk.discard p }) := by
  simp only [guarding, tryCatch, tryCatchThe, MonadExceptOf.tryCatch, ExceptT.tryCatch, ExceptT.mk,
    bind, StateT.bind]
  rw [h]
  rfl

theorem guarding_eq_ok {part : Run α} {a : α} (h : guarding p part s = (.ok a, s')) :
    part s = (.ok a, s') := by
  rcases hpart : part s with ⟨r, next⟩
  cases r with
  | ok a' => rwa [guarding_of_ok hpart] at h
  | error e =>
    rw [guarding_of_error hpart] at h
    cases h

theorem guarding_eq_error {part : Run α} (h : guarding p part s = (.error e, s')) :
    ∃ next, part s = (.error e, next) ∧ s'.disk = next.disk.discard p := by
  rcases hpart : part s with ⟨r, next⟩
  cases r with
  | ok a =>
    rw [guarding_of_ok hpart] at h
    cases h
  | error e' =>
    rw [guarding_of_error hpart] at h
    cases h
    exact ⟨next, rfl, rfl⟩

theorem Only.guarding {part : Run α} (h : Only (· = p) part) :
    Only (· = p) (guarding p part) := by
  intro s
  rcases hpart : part s with ⟨r, next⟩
  cases r with
  | ok a =>
    rw [guarding_of_ok hpart]
    exact h.changesOnly hpart
  | error e =>
    rw [guarding_of_error hpart]
    exact (h.changesOnly hpart).trans (Disk.changesOnly_discard next.disk p)

/-- Behind a guarded part that failed, there is nothing at the path of the guard. -/
theorem Only.holds_eq_false {part : Run α} (h : Only (· = p) part)
    (hfile : s.disk.isDirectory p = false) (herror : Run.guarding p part s = (.error e, s')) :
    s'.disk.holds p = false := by
  obtain ⟨next, hpart, hdisk⟩ := guarding_eq_error herror
  rw [hdisk]
  refine Disk.holds_discard ?_
  rw [(h.changesOnly hpart).same.isDirectory_eq, hfile]

end JarRemap.Run
