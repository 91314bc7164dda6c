import JarRemap.Run
import JarRemap.Side

/-!
# Remapping one hop

The archives that a hop needs to know, and how its own is written.
-/

/-!
## Classpaths

The archives that an artifact was compiled against. The archive of the game itself is there once for
each namespace, and always comes last.
-/

namespace JarRemap

/-- Where the classpath of an artifact comes from. A second namespace stands in where something is
not there in the first. -/
structure ClasspathProvider where
  entries : Namespace → Namespace → Except RunError (List Path)
  /-- The archive of the game. -/
  core? : Namespace → Namespace → Side → Except RunError (Option Path)
  /-- Whether a path is that of the game in some namespace. -/
  isCore : Path → Bool

/-- The classpath of an artifact in a namespace: the entries that exist and are not the game, and
then the game. -/
def ClasspathProvider.forNamespace (c : ClasspathProvider) (d : Disk) (n fallback : Namespace)
    (side : Side) : Except RunError (List Path) := do
  let core ← c.core? n fallback side
  let entries ← c.entries n fallback
  return (entries.filter fun p => d.holds p && !c.isCore p) ++ core.toList

/-- A fixed classpath, with the archive of the game in some namespaces. -/
structure Classpath where
  entries : List Path := []
  core : OrderedMap String Path := {}

namespace Classpath

/-- The archive of the game in a namespace, or else in another one. -/
def core? (c : Classpath) (name fallback : String) : Option Path :=
  c.core.get? name <|> c.core.get? fallback

/-- Whether a path is written down as that of the game in some namespace. -/
def isCore (c : Classpath) (p : Path) : Bool := c.core.values.any fun core => core.same p

/-- The classpath of an artifact in a namespace: the entries that exist and are not the game, and
then the game. -/
def forNamespace (c : Classpath) (d : Disk) (name fallback : String) : List Path :=
  (c.entries.filter fun p => d.holds p && !c.isCore p) ++
    (c.core? name fallback).toList

/-- A fixed classpath is there for every namespace, and asking for it does not fail. -/
def provider (c : Classpath) : ClasspathProvider where
  entries := fun _ _ => .ok c.entries
  core? := fun n fallback _ => .ok (c.core? n.name fallback.name)
  isCore := c.isCore

instance : Coe Classpath ClasspathProvider := ⟨provider⟩

/-- What a fixed classpath provides does not depend on the side. -/
theorem forNamespace_provider (c : Classpath) (d : Disk) (n fallback : Namespace) (side : Side) :
    c.provider.forNamespace d n fallback side = .ok (c.forNamespace d n.name fallback.name) := rfl

end Classpath

end JarRemap

/-!
## Writing a remapped artifact

What a hop reads, and how it writes the remapped archive to a disk: symbols are renamed in all
classes before the archive is created, its entries are written, and the reference maps are put
behind them once it is closed. If any of this fails the archive is removed again.
-/

namespace JarRemap

/-- The hierarchy of a classpath on a disk. What is no file is passed over. -/
def Disk.hierarchyOf (d : Disk) : List Path → Hierarchy → Except RunError Hierarchy
  | [], h => .ok h
  | p :: rest, h => do
      if d.isFile p then d.hierarchyOf rest (h.insertEntries (← d.archive p))
      else d.hierarchyOf rest h

/-- An artifact that was read, and what its symbols are renamed by. -/
structure Remapper where
  artifact : Artifact
  names : Resolver
  rules : List ResourceRule
  /-- How many workers rename the symbols of classes. -/
  workers : Nat := 1

namespace Remapper

/-- The remapped archive. -/
def output (r : Remapper) : Except ArtifactError (List Entry) := do
  let renamed ← r.artifact.renameClasses r.names r.workers
  r.artifact.write r.names r.rules renamed

/-- Do the work of a step, or stop with its error. -/
def step {α : Type} (result : Except ArtifactError α) : Run α :=
  Run.look fun _ => result.mapError .artifact

/-- Write the remapped archive. It cannot be read before it is closed: until then it counts as a
file without bytes. -/
def write (r : Remapper) (path : Path) : Run Unit := do
  let renamed ← step (r.artifact.renameClasses r.names r.workers)
  Run.change (·.write path (.bytes []))
  let entries ← step (r.artifact.writeEntries r.names r.rules renamed 0 r.artifact.entries)
  Run.change (·.write path (.archive entries))
  let refmaps ← step (r.artifact.writeRefmaps r.names)
  Run.change (·.write path (.archive (entries ++ refmaps)))

/-- Write the remapped archive. If that fails, what there is of it is removed again. -/
def apply (r : Remapper) (path : Path) : Run Unit := Run.guarding path (r.write path)

end Remapper

end JarRemap
