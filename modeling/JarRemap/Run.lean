import JarRemap.Artifact
import JarRemap.Disk
import JarRemap.Route

/-!
# Parts of a run

A run reads and changes a disk and may stop with an error at any point. What it did before stays
done, unless a guard stands around the part that fails.
-/

namespace JarRemap

/-- Why a run stops. -/
inductive RunError where
  | route (e : RouteError)
  | artifact (e : ArtifactError)
  | disk (e : DiskError)
  | unreadableArchive
deriving DecidableEq, Repr

/-- The error in words. -/
def RunError.message : RunError → String
  | route e => e.message
  | artifact e => e.message
  | disk e => e.message
  | unreadableArchive => "Invalid archive"

/-- The entries of an archive. A directory can be opened like one, but not read. -/
def Disk.archive (d : Disk) (p : Path) : Except RunError (List Entry) :=
  match d.node p with
  | .error e => .error (.disk e)
  | .ok .directory => .error .unreadableArchive
  | .ok (.file c) =>
      match c.entries? with
      | none => .error .unreadableArchive
      | some entries => .ok entries

/-- What a run changes. -/
structure RunState where
  disk : Disk
  /-- The namespaces, each with its fallback, that a classpath was asked for. -/
  requests : List (String × String) := []

/-- A part of a run. What was done before an error stays done. -/
abbrev Run := ExceptT RunError (StateM RunState)

namespace Run

/-- Look something up on the disk. -/
def look {α : Type} (f : Disk → Except RunError α) : Run α := do
  match f (← get).disk with
  | .ok a => return a
  | .error e => throw e

/-- Change the disk. -/
def change (f : Disk → Except DiskError Disk) : Run Unit := do
  let disk ← look fun d => (f d).mapError .disk
  modify fun s => { s with disk }

/-- Remove what is at a path if a part of a run fails. It makes no difference whether that works:
the part fails with the same error. -/
def guarding {α : Type} (p : Path) (part : Run α) : Run α :=
  try part catch e => do
    modify fun s => { s with disk := s.disk.discard p }
    throw e

end Run

end JarRemap
