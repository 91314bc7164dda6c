import JarRemap.Packager
import JarRemap.Proofs.Disk.Directories
import JarRemap.Proofs.Manifest.Merge
import JarRemap.Proofs.Run.Guard

/-!
# Outputs of the packager

What an artifact is packaged as, and that it is: its manifest is told apart from its other entries,
merged with all others or taken over as it is, and put first.
-/

namespace JarRemap.Packager

/-- The manifests that go into an output, in the order in which they are merged. -/
def sources (manifests : List (List UInt8)) (artifact : List Entry) : List (List UInt8) :=
  manifests ++ (artifact.filter isManifest).map Entry.bytes

section Manifest

variable {p : Packager} {artifact : List Entry}

end Manifest

section Disk

variable {p : Packager} {artifact workDirectory output : Path} {entries : List Entry}
  {d opened : Disk} {s : RunState}

/-- How the manifest of an artifact is extracted, to a file of its own. -/
inductive Extracts (artifact workDirectory : Path) (d : Disk) : Option (List UInt8) → Disk → Prop
  | none : Extracts artifact workDirectory d none d
  | some {bytes : List UInt8} {extracted : Disk}
      (hwrite : d.write (workDirectory.join extractedManifest) (.bytes bytes) = .ok extracted)
      (hapart : d.Apart (workDirectory.join extractedManifest) artifact) :
      Extracts artifact workDirectory d (some bytes) extracted

/-- The artifact can be opened again when its manifest has been extracted. -/
theorem Extracts.archive_eq_ok {manifest : Option (List UInt8)} {extracted : Disk}
    (h : Extracts artifact workDirectory d manifest extracted)
    (hfound : d.archive artifact = .ok entries) : extracted.archive artifact = .ok entries := by
  cases h with
  | none => exact hfound
  | some hwrite hapart =>
    refine (Disk.write_eq_ok hwrite).1.archive_eq_ok ?_ hfound
    rintro path rfl
    exact hapart

end Disk

namespace Sample

/-- An artifact whose manifest does not come first. -/
def entries : List Entry :=
  [⟨"a.txt", [1]⟩, ⟨manifestName, Text.encode "Main-Class: artifact.Main\n".toList⟩]

def disk : Disk where
  nodes := ⟨[(["in.jar"], .file (.archive entries)), (["w"], .directory)], by decide⟩

/-- A packager with attributes and a manifest. -/
def packager : Packager :=
  { ofAttributes [("Main-Class", "own.Main"), ("Vendor", "own")] with
    manifests := [Text.encode "Main-Class: given.Main\nBuild: given\n".toList]
    copy := .ok }

end Sample

end JarRemap.Packager
