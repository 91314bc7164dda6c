import JarRemap.Adapt
import JarRemap.Disk
import JarRemap.Format.Parse
import JarRemap.Merge

/-!
# Building a tree

A builder merges one mapping source after the other into a tree until the tree is frozen. A source
is a file or an archive of files, whose texts are merged into a copy of the tree; the builder is
written to when all of them are in. The side can be chosen until something is merged, and no two
sources may bring in one namespace.
-/

namespace JarRemap

/-- Why a call does not fit the state of the builder. -/
inductive StateError where
  | frozen
  | sideLocked
  | namespaceCollision (names : List String)
  | foreignSource (e : ForeignSource)
deriving DecidableEq, Repr

/-- The error in words. -/
def StateError.message : StateError → String
  | frozen => "Cannot modify frozen mapping tree"
  | sideLocked => "Cannot change the side once mappings have been merged"
  | namespaceCollision names =>
      "Namespace " ++ Text.quoteList names ++ " already exists in the tree"
  | foreignSource e =>
      "Cannot merge mappings from " ++ e.key ++ " into a tree with source namespace " ++ e.existing

/-- Why a source cannot be read for a side. -/
inductive SideError where
  | retroguardCombined
  | joinedSrgRequired (name : String)
  | malformedEntryName (name : String)
deriving DecidableEq, Repr

/-- The error in words. -/
def SideError.message : SideError → String
  | retroguardCombined => "Cannot use retroguard mappings in combined mode"
  | joinedSrgRequired name =>
      "Cannot use srg mappings in combined mode as joined.srg is required, not " ++ name
  | malformedEntryName name => "Archive entry has an unsafe name: " ++ Text.quote name

/-- Why a call to a builder fails. -/
inductive BuildError where
  | state (e : StateError)
  | side (e : SideError)
  | format (e : FormatError)
  /-- The source looks like an archive but cannot be read as one. -/
  | unreadableArchive
  /-- The file cannot be read. -/
  | disk (e : DiskError)
deriving DecidableEq, Repr

/-- The error in words. -/
def BuildError.message : BuildError → String
  | state e => e.message
  | side e => e.message
  | format e => e.message
  | unreadableArchive => "Invalid archive"
  | disk e => e.message

/-- How a source is read and adapted. -/
structure MappingInput where
  adaptation : Adaptation
  /-- The namespaces it marks as readable. -/
  named : List String := []
  /-- The format, if it is not to be told from the text. -/
  format : Option Format := none

/-- A tree that is being built. -/
structure Builder where
  tree : MappingTree := {}
  side : Side := .combined
  /-- Whether anything was merged. -/
  merged : Bool := false
  frozen : Bool := false
  /-- The namespaces that sources brought in. -/
  used : List String := []

namespace Builder

/-- The namespaces of a list that are in use. -/
def collisions (b : Builder) (names : List String) : List String := names.filter b.used.contains

/-- Whether a text from an archive is read for a side. Obfuscation scripts and flat searge files
come in one for each side, told by their names. -/
def selects (side : Side) (m : MappingText) : Except SideError Bool :=
  let ends (suffix : String) : Bool := suffix.toList.isSuffixOf m.name.toList
  match m.format, side with
  | .retroguard, .combined => .error .retroguardCombined
  | .retroguard, .client => .ok (!ends "_server.rgs")
  | .retroguard, .server => .ok (ends "_server.rgs")
  | .srg, .combined => if ends "joined.srg" then .ok true else .error (.joinedSrgRequired m.name)
  | .srg, .client => .ok (ends "joined.srg" || ends "client.srg")
  | .srg, .server => .ok (ends "joined.srg" || ends "server.srg")
  | _, _ => .ok true

/-- The texts from an archive that are read for a side. -/
def select (side : Side) : List MappingText → Except SideError (List MappingText)
  | [] => .ok []
  | m :: rest => do
      let kept ← selects side m
      let more ← select side rest
      return if kept then m :: more else more

/-- The text of a source that is a single file. -/
def single (side : Side) (name : String) (format : Option Format) (text : List Char) :
    Except BuildError MappingText :=
  match format <|> Format.detect text with
  | none => .error (.format (.undetected name))
  | some format =>
      if format = .retroguard ∧ side = .combined then .error (.side .retroguardCombined)
      else .ok ⟨name, format, text⟩

/-- The texts of a source. -/
def texts (side : Side) (name : String) (format : Option Format) (c : Content) :
    Except BuildError (List MappingText) :=
  if c.isArchive then
    match c.mappings with
    | .error .unreadable => .error .unreadableArchive
    | .error (.unsafeName entry) => .error (.side (.malformedEntryName entry))
    | .ok texts => (select side texts).mapError .side
  else (single side name format c.text).map fun m => [m]

/-- Connect namespaces that follow each other in a lineage, if the tree has both. -/
def connectLineage (t : MappingTree) (lineage : List String) : MappingTree :=
  (lineage.zip lineage.tail).foldl
    (fun t (a, b) =>
      if t.namespaces.contains a && t.namespaces.contains b then t.connect a b else t)
    t

/-- Parse and adapt one text, which may be read against a tree. -/
def readText (b : Builder) (a : Adaptation) (t : MappingTree) (m : MappingText) :
    Except BuildError Source := do
  let source ← (m.format.parse ⟨m.name, b.side, t⟩ m.text).mapError .format
  return source.adapt a

def mergeText (b : Builder) (a : Adaptation) (t : MappingTree) (m : MappingText) :
    Except BuildError MappingTree := do
  let source ← b.readText a t m
  let names := b.collisions source.destinations
  if names.isEmpty then
    let t ← (t.merge source).mapError fun e => .state (.foreignSource e)
    return connectLineage t source.lineage
  else .error (.state (.namespaceCollision names))

/-- Merge the texts of a source in order into a copy of the tree. -/
def stage (b : Builder) (input : MappingInput) (texts : List MappingText) :
    Except BuildError MappingTree := do
  let t ← texts.foldlM (b.mergeText input.adaptation) b.tree
  return input.named.foldl MappingTree.declareNamed t

/-- The destinations of a tree that the builder's own tree lacks. -/
def added (b : Builder) (t : MappingTree) : List String :=
  t.destinations.filter fun name => !b.tree.destinations.contains name

/-- Freeze the tree. -/
def freeze (b : Builder) : Builder := { b with frozen := true }

/-- A call to a builder. -/
inductive Call where
  | side (side : Side)
  | content (name : String) (c : Content) (input : MappingInput)
  | file (d : Disk) (p : Path) (input : MappingInput)
  | freeze

/-- Whether a call merges a source. -/
def Call.ingests : Call → Bool
  | content .. | file .. => true
  | side _ | freeze => false

end Builder

/-- Computations on a builder. What was written to the builder before an error stays. -/
abbrev Building := ExceptT BuildError (StateM Builder)

namespace Building

open Builder (Call)

/-- The builder, unless its tree is frozen. -/
def opened : Building Builder := do
  let b ← get
  if b.frozen then throw (.state .frozen) else return b

def chooseSide (side : Side) : Building Unit := do
  let b ← opened
  if b.merged then throw (.state .sideLocked) else set { b with side }

/-- Refuse an input if the tree is frozen or a namespace the input asks for is in use. -/
def check (input : MappingInput) : Building Unit := do
  let b ← opened
  let names := b.collisions input.adaptation.filter
  if names.isEmpty then return () else throw (.state (.namespaceCollision names))

/-- Merge texts into a copy of the tree, then put the copy in the place of the tree. -/
def mergeAll (input : MappingInput) (texts : List MappingText) : Building Unit := do
  let b ← opened
  let t ← liftExcept (b.stage input texts)
  modify fun now => { now with used := addAllNew now.used (b.added t) }
  modify fun now => { now with tree := t }
  modify fun now => { now with merged := true }

/-- Merge a source that was read already. -/
def mergeContent (name : String) (c : Content) (input : MappingInput) : Building Unit := do
  check input
  mergeAll input (← liftExcept (Builder.texts (← get).side name input.format c))

/-- Merge a source from a file, which is named by its path. -/
def mergeFile (d : Disk) (p : Path) (input : MappingInput) : Building Unit := do
  check input
  mergeContent p.text (← liftExcept ((d.read p).mapError BuildError.disk)) input

def freeze : Building MappingTree := do
  modify Builder.freeze
  return (← get).tree

/-- Do what a call asks for; a call that freezes the tree is answered with it. -/
def perform : Call → Building (Option MappingTree)
  | .side side => do
      chooseSide side
      return none
  | .content name c input => do
      mergeContent name c input
      return none
  | .file d p input => do
      mergeFile d p input
      return none
  | .freeze => some <$> freeze

end Building

namespace Builder

def step (b : Builder) (c : Call) : Builder × Option BuildError :=
  match (Building.perform c).run b with
  | (.ok _, next) => (next, none)
  | (.error e, next) => (next, some e)

/-- What a call makes of the builder, if it succeeds. -/
def call (b : Builder) (c : Call) : Except BuildError Builder :=
  match b.step c with
  | (next, none) => .ok next
  | (_, some e) => .error e

def chooseSide (b : Builder) (side : Side) : Except BuildError Builder := b.call (.side side)

/-- The builder after calls, failed ones among them. -/
def run (b : Builder) (calls : List Call) : Builder :=
  calls.foldl (fun b c => (b.step c).1) b

end Builder

end JarRemap
