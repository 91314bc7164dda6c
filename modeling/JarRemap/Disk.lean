import JarRemap.Archive
import JarRemap.OrderedMap
import JarRemap.Path

/-!
# Files and directories

The part of a file system that a run can see. A path is followed part by part, and each part asks
for a directory before it: so there is no way through a file, nor through a directory that is not
there and back up again, and a slash behind the name of a file leads nowhere.
-/

namespace JarRemap

/-- Where a file or directory is: the names on the way down to it, the last one first. -/
abbrev Place := List String

/-- What there is at a place. -/
inductive Node where
  | file (c : Content)
  | directory
deriving DecidableEq, Repr

/-- Why a path cannot be used. -/
inductive DiskError where
  | notFound
  | notADirectory
  | isADirectory
  | alreadyExists
  /-- The path has a null character. -/
  | invalidName
  /-- The path, or a name in it, has too many bytes. -/
  | nameTooLong
deriving DecidableEq, Repr

/-- The error in words. -/
def DiskError.message : DiskError → String
  | notFound => "No such file or directory"
  | notADirectory => "Not a directory"
  | isADirectory => "Is a directory"
  | alreadyExists => "File exists"
  | invalidName => "Invalid file name"
  | nameTooLong => "File name too long"

/-- Files and directories. -/
structure Disk where
  nodes : OrderedMap Place Node := {}
  /-- The directory in which relative paths start. It is there, as are all directories above it. -/
  current : Place := []

namespace Disk

/-- What there is at a place. -/
def node? (d : Disk) (place : Place) : Option Node :=
  if place.isSuffixOf d.current then some .directory else d.nodes.get? place

/-- The greatest number of bytes in a name. -/
def nameLimit : Nat := 255

/-- Follow one part of a path from a place, where a directory must be. -/
def follow (d : Disk) (place : Place) (part : String) : Except DiskError Place :=
  match d.node? place with
  | none => .error .notFound
  | some (.file _) => .error .notADirectory
  | some .directory =>
      if part = "" ∨ part = "." then .ok place
      else if part = ".." then .ok place.tail
      else if nameLimit < part.utf8ByteSize then .error .nameTooLong
      else .ok (part :: place)

/-- The greatest number of bytes in a path. -/
def pathLimit : Nat := 4095

def start (d : Disk) (p : Path) : Except DiskError Place :=
  if p.text = "" then .error .notFound
  else if p.text.toList.contains '\x00' then .error .invalidName
  else if pathLimit < p.text.utf8ByteSize then .error .nameTooLong
  else .ok (if p.isAbsolute then [] else d.current)

/-- The place of a path, where there may be nothing yet. -/
def place (d : Disk) (p : Path) : Except DiskError Place := do
  p.parts.foldlM d.follow (← d.start p)

/-- What there is at a path. -/
def node (d : Disk) (p : Path) : Except DiskError Node := do
  match d.node? (← d.place p) with
  | some n => return n
  | none => throw .notFound

/-- Whether there is anything at a path. -/
def holds (d : Disk) (p : Path) : Bool := (d.node p).toOption.isSome

def isFile (d : Disk) (p : Path) : Bool :=
  match d.node p with
  | .ok (.file _) => true
  | _ => false

def isDirectory (d : Disk) (p : Path) : Bool :=
  match d.node p with
  | .ok .directory => true
  | _ => false

/-- What the file at a path holds. -/
def read (d : Disk) (p : Path) : Except DiskError Content := do
  match ← d.node p with
  | .file c => return c
  | .directory => throw .isADirectory

/-- The parts of a path without the slashes at its end. -/
def trimmedParts (p : Path) : List String :=
  (p.parts.reverse.dropWhile fun part => part = "").reverse

/-- The place of a path, whether or not it ends in slashes. -/
def trimmedPlace (d : Disk) (p : Path) : Except DiskError Place := do
  (trimmedParts p).foldlM d.follow (← d.start p)

/-- Where a file can be written at a path. A slash at the end asks for a directory. -/
def target (d : Disk) (p : Path) : Except DiskError Place := do
  let place ← d.trimmedPlace p
  if p.endsInSlash then throw .isADirectory
  else
    match d.node? place with
    | some .directory => throw .isADirectory
    | _ => return place

def put (d : Disk) (place : Place) (n : Node) : Disk := { d with nodes := d.nodes.insert place n }

/-- What is put at a place is there, and everything else is as it was. -/
theorem node?_put (d : Disk) {place : Place} (n : Node) (other : Place)
    (h : place.isSuffixOf d.current = false) :
    (d.put place n).node? other = if other = place then some n else d.node? other := by
  unfold node? put
  by_cases ho : other = place
  · subst ho
    simp [h, OrderedMap.get?_insert]
  · simp [ho, OrderedMap.get?_insert]

/-- Write a file. -/
def write (d : Disk) (p : Path) (c : Content) : Except DiskError Disk := do
  return d.put (← d.target p) (.file c)

/-- Remove a file. -/
def remove (d : Disk) (p : Path) : Except DiskError Disk := do
  let place ← d.place p
  match d.node? place with
  | none => throw .notFound
  | some .directory => throw .isADirectory
  | some (.file _) => return { d with nodes := d.nodes.erase place }

/-- Remove the file at a path, if there is anything. -/
def clear (d : Disk) (p : Path) : Except DiskError Disk :=
  if d.holds p then d.remove p else .ok d

/-- Remove the file at a path, as far as that is possible. -/
def discard (d : Disk) (p : Path) : Disk := (d.remove p).toOption.getD d

/-- Make a directory where there is nothing yet. -/
def makeDirectory (d : Disk) (p : Path) : Except DiskError Disk := do
  let place ← d.trimmedPlace p
  match d.node? place with
  | some _ => throw .alreadyExists
  | none => return d.put place .directory

/-- Make a directory; it may be there already. -/
def ensureDirectory (d : Disk) (p : Path) : Except DiskError Disk :=
  match d.makeDirectory p with
  | .ok d => .ok d
  | .error e => if d.isDirectory p then .ok d else .error e

/-- Make a directory and those above it, as far as they are not there; the number bounds how many
those are. -/
def makeDirectoriesFrom (d : Disk) (p : Path) : Nat → Except DiskError Disk
  | 0 => .ok d
  | above + 1 =>
      match d.ensureDirectory p, p.parent? with
      | .error .notFound, some parent => do
          (← d.makeDirectoriesFrom parent above).ensureDirectory p
      | result, _ => result

/-- Make a directory and those above it. No path at all asks for no directory. -/
def makeDirectories (d : Disk) (p : Path) : Except DiskError Disk :=
  d.makeDirectoriesFrom p p.steps.length

/-- Write a file and make the directories above it. -/
def writeBelow (d : Disk) (p : Path) (c : Content) : Except DiskError Disk := do
  match p.parent? with
  | some parent => (← d.makeDirectories parent).write p c
  | none => d.write p c

/-- Write files as far as that is possible, and make directories for them. -/
def writeAll (d : Disk) (files : List (Path × Content)) : Disk :=
  files.foldl (fun d (p, c) => ((d.writeBelow p c).toOption).getD d) d

/-- What is on a disk that is not there on another one, or not the same. -/
def nodesNotIn (d other : Disk) : List (Place × Node) :=
  d.nodes.entries.filter fun (place, n) => other.node? place ≠ some n

/-- The places that another disk has nothing at. -/
def placesNotIn (d other : Disk) : List Place :=
  d.nodes.keys.filter fun place => (other.node? place).isNone

/-- The places that a path leads through if all of them are there. -/
def placesOn (d : Disk) (p : Path) : List Place :=
  let start : Place := if p.isAbsolute then [] else d.current
  (p.parts.foldl
    (fun (places, place) part =>
      let next := if part = "" ∨ part = "." then place
        else if part = ".." then place.tail
        else part :: place
      (addNew places next, next))
    ([], start)).1

end Disk

def Path.ofPlace (place : Place) : Path := ⟨"/" ++ String.intercalate "/" place.reverse⟩

end JarRemap
