import JarRemap.Packager
import JarRemap.Remapper
import JarRemap.Settings

/-!
# Running a task

A task takes an artifact from the namespace it is developed in to the one it is published in, one
archive for each hop, and packages the last archive. A run works on a disk, which keeps the archives
of all finished hops even if a later hop fails; the archive of a hop that fails is not there.
-/

namespace JarRemap

/-- Processing around a run. -/
structure Hooks where
  /-- The artifact to remap in place of the input. -/
  before : Path → Path := id
  /-- The artifact to package in place of the remapped one. -/
  after : Path → Path := id

/-- A task. -/
structure Task where
  tree : MappingTree
  settings : Settings
  /-- The directory of the archives between hops. -/
  workDirectory : Path
  /-- What the archives are called after if the artifact has no name. -/
  name : String := "remapJar"
  classpath : ClasspathProvider := ({} : Classpath)
  hooks : Hooks := {}
  ignoreConflicts : Bool := true
  /-- How many workers rename the symbols of classes. -/
  workers : Nat := 1
  /-- Changes to the options for reference maps, in order. -/
  refmapOptions : List (RefmapOptions → RefmapOptions) := []

/-- Where a run stands between two hops. -/
structure Stage where
  /-- The archive that the next hop reads. -/
  artifact : Path
  /-- The namespace of the archive. -/
  current : Namespace
  /-- The namespace before. -/
  previous : Namespace
deriving DecidableEq, Repr

namespace Task

/-- The options for reference maps. -/
def options (t : Task) : RefmapOptions :=
  t.refmapOptions.foldl (fun options change => change options)
    { enabled := true, wildcards := t.settings.wildcards }

def resources (t : Task) (hop : Hop) : List ResourceRule :=
  [.widener ⟨hop.source.token, hop.target.token⟩, .transformer ⟨t.settings.legacy⟩]

/-- Read an artifact for a hop, given its classpath. -/
def remapper (t : Task) (hop : Hop) (classpath : List Path) (input : Path) (d : Disk) :
    Except RunError Remapper := do
  let dictionary ← (Dictionary.ofTree t.tree hop.source.name hop.target.name).mapError fun e =>
    .route (.unknownNamespace e)
  let known ← d.hierarchyOf classpath {}
  let entries ← d.archive input
  let artifact ← (Artifact.read t.options known entries).mapError .artifact
  return {
    artifact
    names := ⟨dictionary, artifact.hierarchy, t.ignoreConflicts⟩
    rules := t.resources hop
    workers := t.workers }

/-- What the archives between hops are called after. -/
def stem (t : Task) (input : Path) : String := input.stem?.getD t.name

/-- The archive that a hop to a namespace writes. -/
def target (t : Task) (stem namespaceName : String) : Path :=
  t.workDirectory.join (stem ++ "-temp-" ++ namespaceName ++ ".jar")

/-- A namespace, whether or not the tree has it. -/
def namespaceOf (t : Task) (name : String) : Namespace := ⟨name, t.tree.isNamed name⟩

/-- Go one hop on. What a run before left where its archive goes is removed first. The classpath is
that of the namespace the artifact is in; where it lacks an archive there, the one of the namespace
before is asked for. -/
def remapHop (t : Task) (stem : String) (stage : Stage) (hop : Hop) : Run Stage := do
  let output := t.target stem hop.target.name
  Run.change (·.clear output)
  modify fun s =>
    { s with requests := s.requests ++ [(stage.current.name, stage.previous.name)] }
  let classpath ← Run.look fun d =>
    t.classpath.forNamespace d stage.current stage.previous t.settings.side
  let remapper ← Run.look (t.remapper hop classpath stage.artifact)
  remapper.apply output
  return ⟨output, hop.target, stage.current⟩

/-- Go through hops. -/
def remapAll (t : Task) (stem : String) (stage : Stage) (hops : List Hop) : Run Stage :=
  hops.foldlM (t.remapHop stem) stage

/-- The stage in front of all hops. -/
def start (t : Task) (input : Path) : Stage :=
  ⟨input, t.namespaceOf t.settings.dev, t.namespaceOf t.settings.fallback⟩

/-- Remap an artifact and hand the result over, together with the directory of the archives. -/
def runWith (t : Task) (handOver : Path → Path → Run Unit) (input : Path) : Run Unit := do
  let hops ← Run.look fun _ =>
    (t.tree.resolve t.settings.dev t.settings.fallback t.settings.prod).mapError .route
  let input := t.hooks.before input
  Run.change (·.makeDirectories t.workDirectory)
  let last ← t.remapAll (t.stem input) (t.start input) hops
  handOver (t.hooks.after last.artifact) t.workDirectory

/-- Remap an artifact and package the result. -/
def run (t : Task) (p : Packager) (input output : Path) : Run Unit :=
  t.runWith (fun artifact workDirectory => p.finish artifact workDirectory output) input

end Task

end JarRemap
