import JarRemap.Text.Cut

/-!
# Paths

A path is kept as it is written, because a slash at its end and what stands between its slashes
matter when it is followed. Two paths that take the same steps are the same, though they may be
written in two ways.
-/

namespace JarRemap

/-- A path as it is written. -/
structure Path where
  text : String
deriving DecidableEq, Repr

namespace Path

/-- A step of a path. -/
inductive Step where
  /-- To the root, at the start of an absolute path. -/
  | root
  /-- To where one is, at the start of a relative path. -/
  | here
  | up
  | into (name : String)
deriving DecidableEq, Repr

/-- Whether a path starts at the root. -/
def isAbsolute (p : Path) : Bool := p.text.toList.head? = some '/'

/-- Whether a path ends in a slash. -/
def endsInSlash (p : Path) : Bool := p.text.toList.getLast? = some '/'

/-- The texts between the slashes. -/
def parts (p : Path) : List String := (Text.splitOn '/' p.text.toList).map String.ofList

/-- The step of a part behind the first; none for no text and for a dot. -/
def Step.ofPart? (part : String) : Option Step :=
  if part = "" ∨ part = "." then none
  else if part = ".." then some .up
  else some (.into part)

def steps (p : Path) : List Step :=
  let first : List Step :=
    if p.isAbsolute then [.root] else if p.parts.head? = some "." then [.here] else []
  first ++ p.parts.filterMap Step.ofPart?

/-- Whether two paths take the same steps. -/
def same (p q : Path) : Bool := p.steps = q.steps

/-- A step in writing. -/
def Step.text : Step → String
  | root => ""
  | here => "."
  | up => ".."
  | into name => name

def ofSteps (steps : List Step) : Path :=
  if steps = [.root] then ⟨"/"⟩ else ⟨String.intercalate "/" (steps.map Step.text)⟩

/-- The path without its last step; none if there is no step, or only that to the root. -/
def parent? (p : Path) : Option Path :=
  match p.steps.getLast? with
  | none | some .root => none
  | some _ => some (ofSteps p.steps.dropLast)

def fileName? (p : Path) : Option String :=
  match p.steps.getLast? with
  | some (.into name) => some name
  | _ => none

/-- A name without what stands behind its last dot, unless that dot comes first. -/
def stemOf (name : String) : String :=
  match Text.cutLast? '.' name.toList with
  | some (before, _) => if before.isEmpty then name else String.ofList before
  | none => name

/-- The name that a path ends in, without what stands behind its last dot. -/
def stem? (p : Path) : Option String := p.fileName?.map stemOf

/-- A path that goes on from another one; an absolute one starts anew. -/
def join (p : Path) (text : String) : Path :=
  if (Path.mk text).isAbsolute then ⟨text⟩
  else
    match p.text.toList.getLast? with
    | none | some '/' => ⟨p.text ++ text⟩
    | some _ => ⟨p.text ++ "/" ++ text⟩

end Path

end JarRemap
