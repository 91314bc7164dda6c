import JarRemap.CommandLine
import JarRemap.Zip.Reader
import JarRemap.Zip.Writer

/-!
# The program

Reads the files that an invocation names, runs it on them, and writes what is new. Everything else
is decided by the pure functions that are called here.
-/

namespace JarRemap.Program

/-- The disk of the program, of which nothing has been looked at yet. -/
def emptyDisk : IO Disk := do
  let here ← IO.currentDir
  return { current := ((Path.mk here.toString).parts.filter fun part => part ≠ "").reverse }

/-- Look at a place. -/
def readPlace (d : Disk) (place : Place) : IO Disk := do
  let path := (Path.ofPlace place).text
  match ← (IO.FS.readBinFile path).toBaseIO with
  | .ok bytes => return d.put place (.file (Zip.content bytes))
  | .error _ =>
      if ← ((← IO.currentDir) / path).isDir then return d.put place .directory else return d

/-- Look at the places that paths lead through. -/
def readPaths (d : Disk) (paths : List Path) : IO Disk :=
  ((paths.map d.placesOn).flatten.eraseDups).foldlM readPlace d

/-- Write what is new on a disk, and remove what is not there any more. -/
def writeChanges (before after : Disk) : IO Unit := do
  for place in before.placesNotIn after do
    IO.FS.removeFile (Path.ofPlace place).text
  for (place, n) in after.nodesNotIn before do
    let path := (Path.ofPlace place).text
    match n with
    | .directory => IO.FS.createDir path
    | .file c => IO.FS.writeBinFile path ⟨(Zip.contentBytes c).toArray⟩

/-- Run an invocation, and give the exit code. -/
def run (i : Invocation) : IO UInt32 := do
  let named ← readPaths (← emptyDisk) i.namedPaths
  let before ← readPaths named (i.leftovers named)
  let (result, after) := i.run before 1
  writeChanges before after
  match result with
  | .ok _ => return 0
  | .error e => do
      IO.eprintln ("Error: " ++ e.message)
      return 1

end JarRemap.Program

/-- Do what the words of a command line ask for. -/
def main (words : List String) : IO UInt32 := do
  match JarRemap.Invocation.ofWords words with
  | .error e => do
      IO.eprintln ("error: " ++ e.message)
      return 1
  | .ok (.inl .help) => do
      IO.println JarRemap.helpText
      return 0
  | .ok (.inl .version) => do
      IO.println JarRemap.version
      return 0
  | .ok (.inr i) => JarRemap.Program.run i
