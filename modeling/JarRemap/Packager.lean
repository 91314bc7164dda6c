import JarRemap.Manifest
import JarRemap.Run

/-!
# Packaging

The last step of a run: a remapped artifact becomes the output, with its manifest first. The
manifest is merged from the packager's own attributes and all manifests it was given; a single
manifest that nothing is merged into stays as it is written.
-/

namespace JarRemap

/-- Where an archive keeps its manifest. -/
def manifestName : String := "META-INF/MANIFEST.MF"

def isManifest (e : Entry) : Bool := e.name = manifestName

/-- What the output is packaged with. -/
structure Packager where
  /-- Attributes that any manifest overrides. -/
  attributes : Manifest := {}
  /-- The manifests, the first one first. -/
  manifests : List (List UInt8) := []
  /-- Reads an entry once more in order to copy it as it is, which fails where the archive is broken
  at the entry. -/
  copy : Entry → Except RunError Entry := .ok

namespace Packager

def ofAttributes (attributes : List (String × String)) : Packager where
  attributes := { main := .ofList attributes }

def takeManifest (p : Packager) (bytes : List UInt8) : Packager :=
  { p with manifests := p.manifests ++ [bytes] }

/-- The bytes of the manifest of the output. -/
def manifest? (p : Packager) : Option (List UInt8) :=
  match p.manifests, p.attributes.isEmpty with
  | [], true => none
  | [bytes], true => some bytes
  | _, _ =>
      let merged := p.manifests.foldl
        (fun m bytes => m.merge (.parse (Text.decodeLossy bytes))) p.attributes
      some merged.toBytes

/-- The entries of the output. -/
def package (p : Packager) (artifact : List Entry) : List Entry :=
  (p.manifest?.map (Entry.mk manifestName)).toList ++
    artifact.filter fun e => !isManifest e

/-- The output in a place of its own. -/
def packageApart (p : Packager) (artifact : List Entry) : Except RunError Content := do
  return .archive (p.package (← artifact.mapM p.copy))

/-- The output in the place of the artifact itself; none if the packaging fails. The artifact is
emptied, and its new manifest begun, before entries are copied: nothing is found where a second
entry was, nor where the first one was unless the manifest stands there now. What is copied for that
first entry is not what it held. An output with such an entry cannot be read: it has no bytes. -/
def packageOver? (p : Packager) (artifact : List Entry) : Option Content :=
  match artifact, p.manifest? with
  | [], _ => some (.archive (p.package []))
  | [e], some _ =>
      if isManifest e || e.bytes.isEmpty then some (.archive (p.package [e])) else some (.bytes [])
  | _, _ => none

/-- The manifest of an artifact; of several entries of the name the last one counts. -/
def manifestOf? (artifact : List Entry) : Option (List UInt8) :=
  (artifact.reverse.find? isManifest).map Entry.bytes

/-- The file that the manifest of an artifact is extracted to. -/
def extractedManifest : String := "input-manifest.MF"

/-- Open an artifact, and make the directories of the output. -/
def openArtifact (artifact output : Path) : Run (List Entry) := do
  let entries ← Run.look (·.archive artifact)
  match output.parent? with
  | none => pure ()
  | some parent => Run.change (·.makeDirectories parent)
  return entries

/-- What the output holds, given where the artifact and the output are. -/
def outputOf (p : Packager) (source target : Place) (entries : List Entry) :
    Except RunError Content :=
  if source ≠ target then p.packageApart entries
  else
    match p.packageOver? entries with
    | some c => .ok c
    | none => .error .unreadableArchive

/-- Write the output, which counts as a file without bytes until it is finished. -/
def writeOutput (p : Packager) (artifact output : Path) (entries : List Entry) : Run Unit := do
  let source ← Run.look fun d => (d.place artifact).mapError .disk
  let target ← Run.look fun d => (d.target output).mapError .disk
  Run.change (·.write output (.bytes []))
  let content ← Run.look fun _ => p.outputOf source target entries
  Run.change (·.write output content)

/-- Copy an artifact to the output. An output that is not finished is removed again. -/
def copyFrom (p : Packager) (artifact output : Path) : Run Unit := do
  let entries ← openArtifact artifact output
  Run.guarding output (p.writeOutput artifact output entries)

/-- Package an artifact; its own manifest is the last one that is merged. -/
def finish (p : Packager) (artifact workDirectory output : Path) : Run Unit := do
  match manifestOf? (← Run.look (·.archive artifact)) with
  | none => p.copyFrom artifact output
  | some bytes => do
      Run.change (·.write (workDirectory.join extractedManifest) (.bytes bytes))
      (p.takeManifest bytes).copyFrom artifact output

end Packager

end JarRemap
