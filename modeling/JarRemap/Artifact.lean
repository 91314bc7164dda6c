import JarRemap.Refmap
import JarRemap.Renaming.Classes
import JarRemap.Resource.AccessTransformer
import JarRemap.Resource.AccessWidener
import JarRemap.Workers

/-!
# Remapping an artifact

One hop for a whole archive. All entries are read first, because the hierarchy and the reference
maps must be known before anything is renamed; then symbols are renamed in classes, whose entries
take the names of the classes they hold, and in the other files that speak of symbols. Reference
maps are put behind all other entries.
-/

namespace JarRemap

/-- Why a resource is refused. -/
inductive ResourceError where
  | widener (e : Resource.WidenerError)
  | transformer (e : Resource.TransformerError)
deriving DecidableEq, Repr

/-- The error in words. -/
def ResourceError.message : ResourceError → String
  | widener e => e.message
  | transformer e => e.message

/-- Renames symbols in the files of some names. -/
structure ResourceRule where
  accepts : String → Bool
  transform : String → List UInt8 → Dictionary → Except ResourceError (List UInt8)

def ResourceRule.widener (w : Resource.AccessWidener) : ResourceRule where
  accepts := Resource.AccessWidener.accepts
  transform := fun name bytes s => (w.transform name bytes s).mapError .widener

def ResourceRule.transformer (t : Resource.AccessTransformer) : ResourceRule where
  accepts := Resource.AccessTransformer.accepts
  transform := fun name bytes s => (t.transform name bytes s).mapError .transformer

/-- Why an artifact cannot be remapped. -/
inductive ArtifactError where
  /-- An entry is not the class file it should be. -/
  | invalidClass (entry : String) (f : ClassFault)
  /-- Two members of a class would get one name and descriptor. -/
  | conflict (kind owner name desc : String)
  | resource (e : ResourceError)
  | refmap (e : InvalidJson)
deriving DecidableEq, Repr

/-- The error in words. -/
def ArtifactError.message : ArtifactError → String
  | invalidClass entry f => "Unable to rewrite " ++ entry ++ ": " ++ f.message
  | conflict kind owner name desc => (RenameFault.conflict kind owner name desc).message
  | resource e => e.message
  | refmap e => "Invalid reference map " ++ e.file

/-- The error of an entry that holds a class. -/
def ArtifactError.ofRenameFault (entry : String) : RenameFault → ArtifactError
  | .classFile f => invalidClass entry f
  | .conflict kind owner name desc => conflict kind owner name desc

/-- An entry that was read, with the name of the class it holds. -/
structure ReadEntry where
  entry : Entry
  className : Option String := none
deriving DecidableEq, Repr

/-- An artifact that was read. -/
structure Artifact where
  entries : List ReadEntry := []
  hierarchy : Hierarchy := {}
  refmaps : Refmaps

namespace Artifact

def readEntry (a : Artifact) (e : Entry) : Except ArtifactError Artifact :=
  if Hierarchy.isClassEntry e then
    match ClassFile.parse e.bytes with
    | .error f => .error (.invalidClass e.name f)
    | .ok c =>
        .ok { a with
          entries := a.entries ++ [⟨e, some c.name⟩]
          hierarchy := a.hierarchy.insertClass c }
  else if e.isDirectory then .ok { a with entries := a.entries ++ [⟨e, none⟩] }
  else
    .ok { a with
      entries := a.entries ++ [⟨e, none⟩]
      refmaps := a.refmaps.read e.name e.bytes }

/-- Read an archive, given the hierarchy of its classpath. -/
def read (options : RefmapOptions) (classpath : Hierarchy) (entries : List Entry) :
    Except ArtifactError Artifact :=
  entries.foldlM readEntry { hierarchy := classpath, refmaps := { options } }

/-- A class of an archive, by the index of its entry. -/
structure ClassItem where
  index : Nat
  entry : Entry

/-- The classes of an archive. -/
def classes (a : Artifact) : List ClassItem :=
  (a.entries.zipIdx.filter fun item => Hierarchy.isClassEntry item.1.entry).map fun item =>
    ⟨item.2, item.1.entry⟩

def renameClass (names : Resolver) (item : ClassItem) :
    Except ArtifactError (Nat × List UInt8) :=
  match ClassRenaming.renamedBytes names item.entry.bytes with
  | .ok bytes => .ok (item.index, bytes)
  | .error f => .error (.ofRenameFault item.entry.name f)

/-- Rename the symbols of all classes with at most so many workers; the new bytes by the index of
the entry. -/
def renameClasses (a : Artifact) (names : Resolver) (workers : Nat) :
    Except ArtifactError (List (Nat × List UInt8)) :=
  Workers.workAll (renameClass names) workers a.classes

/-- Where archives keep the classes of later language versions. -/
def versionsDirectory : String := "META-INF/versions/"

/-- What stands before the name of a class in the name of its entry, if the entry lies in a
directory of a later version. -/
def versionOf (entry className : String) : List Char :=
  match (Text.stripEnd? ".class".toList entry.toList).bind (Text.stripEnd? className.toList) with
  | none => []
  | some before =>
      if versionsDirectory.toList.isPrefixOf before && before.getLast? = some '/' then before
      else []

/-- The name of the entry of a class: the new name of the class it holds. -/
def newEntryName (names : Resolver) (e : ReadEntry) : String :=
  match e.className with
  | none => e.entry.name
  | some name =>
      String.ofList (versionOf e.entry.name name) ++ (names.newClass? name).getD name ++ ".class"

/-- Rename the symbols of a file by the first rule that accepts its name. -/
def renameResource (rules : List ResourceRule) (s : Dictionary) (e : Entry) :
    Except ArtifactError (List UInt8) :=
  match rules.find? fun r => r.accepts e.name with
  | some r => (r.transform e.name e.bytes s).mapError .resource
  | none => .ok e.bytes

/-- The entries that come of one entry: none for a reference map, else one. -/
def writeEntry (a : Artifact) (names : Resolver) (rules : List ResourceRule)
    (renamed : List (Nat × List UInt8)) (index : Nat) (e : ReadEntry) :
    Except ArtifactError (List Entry) :=
  if e.entry.isDirectory then .ok [⟨e.entry.name, []⟩]
  else if a.refmaps.isRefmap e.entry.name then .ok []
  else
    match renamed.find? fun r => r.1 = index with
    | some (_, bytes) => .ok [⟨newEntryName names e, bytes⟩]
    | none => do return [⟨e.entry.name, ← renameResource rules names.dictionary e.entry⟩]

/-- The entries from an index on. -/
def writeEntries (a : Artifact) (names : Resolver) (rules : List ResourceRule)
    (renamed : List (Nat × List UInt8)) : Nat → List ReadEntry →
    Except ArtifactError (List Entry)
  | _, [] => .ok []
  | index, e :: rest => do
      let new ← writeEntry a names rules renamed index e
      return new ++ (← writeEntries a names rules renamed (index + 1) rest)

/-- The reference maps under new names. -/
def writeRefmaps (a : Artifact) (names : Resolver) : Except ArtifactError (List Entry) := do
  let refmaps ← (a.refmaps.renamed names).mapError .refmap
  return refmaps.map fun (name, bytes) => ⟨name, bytes⟩

/-- The remapped archive, given its classes under new names. -/
def write (a : Artifact) (names : Resolver) (rules : List ResourceRule)
    (renamed : List (Nat × List UInt8)) : Except ArtifactError (List Entry) := do
  let entries ← writeEntries a names rules renamed 0 a.entries
  return entries ++ (← writeRefmaps a names)

end Artifact

end JarRemap
