import JarRemap.Descriptor

/-!
# Generic signatures

A signature is a descriptor with type parameters, type arguments and inner classes written out as
`Louter<...>.inner;`. It is read into pieces, which are either plain text or the name of a class;
only then are the names replaced. So whether a text is a signature does not hang on the new names.
-/

namespace JarRemap.Signature

/-- A part of a signature. -/
inductive Piece where
  /-- Text that no renaming changes. -/
  | text (s : List Char)
  /-- The name a class type begins with. -/
  | outer (name : String)
  /-- A suffix of a class type: the name the type begins with, the suffixes before, its own name. -/
  | inner (outer : String) (before : List String) (name : String)
deriving DecidableEq, Repr

/-- The pieces at the start of a text, and the rest of it. -/
abbrev Reading := Option (List Piece × List Char)

/-- A name of at least one character, up to the first character that satisfies `stop`. -/
def identifier? (stop : Char → Bool) (s : List Char) : Option (List Char × List Char) :=
  let name := s.takeWhile fun c => !stop c
  let rest := s.dropWhile fun c => !stop c
  if name.isEmpty || rest.isEmpty then none else some (name, rest)

def endsClassName (c : Char) : Bool := c = '<' || c = '.' || c = ';'

/-- The letters of the types that name no class. -/
def isPrimitive (c : Char) : Bool := "BCDFIJSZV".toList.contains c

/-- Put pieces before those of a reading. -/
def before (pieces : List Piece) (reading : Reading) : Reading :=
  reading.map fun (more, rest) => (pieces ++ more, rest)

mutual

/-- A class type, a type variable or an array. The number bounds the depth and the length. -/
def reference : Nat → List Char → Reading
  | fuel + 1, 'L' :: rest => do
      let (name, rest) ← identifier? endsClassName rest
      let name := String.ofList name
      before [.text ['L'], .outer name] (suffixes fuel name [] rest)
  | _ + 1, 'T' :: rest => do
      let (name, rest) ← identifier? (· = ';') rest
      some ([.text ('T' :: name ++ [';'])], rest.tail)
  | fuel + 1, '[' :: c :: rest =>
      if isPrimitive c then some ([.text ['[', c]], rest)
      else before [.text ['[']] (reference fuel (c :: rest))
  | _, _ => none

/-- The rest of a class type behind a name in it. -/
def suffixes : Nat → String → List String → List Char → Reading
  | 0, _, _, _ => none
  | fuel + 1, outer, inner, s => do
      let (pieces, rest) ← match s with
        | '<' :: rest => before [.text ['<']] (arguments fuel rest)
        | _ => some ([], s)
      match rest with
      | '.' :: rest => do
          let (name, rest) ← identifier? endsClassName rest
          let name := String.ofList name
          before (pieces ++ [.text ['.'], .inner outer inner name])
            (suffixes fuel outer (inner ++ [name]) rest)
      | ';' :: rest => some (pieces ++ [.text [';']], rest)
      | _ => none

/-- The type arguments behind an opening bracket, and the closing one. -/
def arguments : Nat → List Char → Reading
  | 0, _ => none
  | _ + 1, '>' :: rest => some ([.text ['>']], rest)
  | fuel + 1, '*' :: rest => before [.text ['*']] (arguments fuel rest)
  | fuel + 1, '+' :: rest => do
      let (pieces, rest) ← reference fuel rest
      before (.text ['+'] :: pieces) (arguments fuel rest)
  | fuel + 1, '-' :: rest => do
      let (pieces, rest) ← reference fuel rest
      before (.text ['-'] :: pieces) (arguments fuel rest)
  | fuel + 1, s => do
      let (pieces, rest) ← reference fuel s
      before pieces (arguments fuel rest)

end

/-- A class type, a type variable or an array at the start of a text. -/
def referenceType (s : List Char) : Reading := reference (s.length + 1) s

/-- Any type at the start of a text. -/
def javaType : List Char → Reading
  | c :: rest =>
      if isPrimitive c then some ([.text [c]], rest) else referenceType (c :: rest)
  | [] => none

/-- The bounds of a type parameter: a colon each, with a type behind it or none. -/
def bounds : Nat → List Char → Reading
  | fuel + 1, ':' :: c :: rest => do
      let (pieces, rest) ←
        if c = 'L' ∨ c = 'T' ∨ c = '[' then referenceType (c :: rest) else some ([], c :: rest)
      before (.text [':'] :: pieces) (bounds fuel rest)
  | _ + 1, [':'] => none
  | _, s => some ([], s)

/-- The type parameters behind an opening bracket, and the closing one. -/
def parameters : Nat → List Char → Reading
  | _ + 1, '>' :: rest => some ([.text ['>']], rest)
  | fuel + 1, c :: rest => do
      let (name, rest) ← identifier? (· = ':') (c :: rest)
      let (pieces, rest) ← bounds (rest.length + 1) rest
      before (.text name :: pieces) (parameters fuel rest)
  | _, _ => none

/-- The argument types of a method, and the closing parenthesis. -/
def argumentTypes : Nat → List Char → Reading
  | 0, _ => none
  | _ + 1, ')' :: rest => some ([.text [')']], rest)
  | fuel + 1, s => do
      let (pieces, rest) ← javaType s
      before pieces (argumentTypes fuel rest)

/-- The exceptions of a method, up to the end of the text. -/
def exceptions : Nat → List Char → Option (List Piece)
  | _, [] => some []
  | fuel + 1, '^' :: rest => do
      let (pieces, rest) ← referenceType rest
      let more ← exceptions fuel rest
      some (.text ['^'] :: pieces ++ more)
  | _, _ => none

/-- One type after the other, up to the end of the text. -/
def superTypes : Nat → List Char → Option (List Piece)
  | _, [] => some []
  | fuel + 1, s => do
      let (pieces, rest) ← referenceType s
      let more ← superTypes fuel rest
      some (pieces ++ more)
  | 0, _ => none

/-- What follows the type parameters: a method, or one or more types. -/
def body : List Char → Option (List Piece)
  | '(' :: rest => do
      let (arguments, rest) ← argumentTypes (rest.length + 1) rest
      let (returned, rest) ← javaType rest
      let thrown ← exceptions rest.length rest
      some (.text ['('] :: arguments ++ returned ++ thrown)
  | [] => none
  | s => superTypes s.length s

/-- The pieces of a signature, or `none` if the text is none. -/
def pieces? : List Char → Option (List Piece)
  | '<' :: rest => do
      let (pieces, rest) ← parameters (rest.length + 1) rest
      let more ← body rest
      some (.text ['<'] :: pieces ++ more)
  | s => body s

/-- A class type as it is written without arguments, and under its new name, so far. -/
structure Written where
  old : String
  new : String

/-- The new name of the suffix `name` of a class type that is written `old` with it, behind the new
outer name. The new name of the whole class gives it if that begins with the new outer name; else it
is what stands behind the last dollar sign or slash. -/
def innerImage (f : ClassMap) (newOuter old name : String) : String :=
  match f old with
  | none => name
  | some image =>
      match Text.stripStart? (newOuter.toList ++ ['$']) image.toList with
      | some rest => String.ofList rest
      | none => String.ofList (Text.behindLast (fun c => c = '$' || c = '/') image.toList)

/-- The new name of a suffix. -/
def suffixImage (f : ClassMap) (outer : Written) (name : String) : String :=
  innerImage f outer.new (outer.old ++ "$" ++ name) name

/-- Add a suffix to a class type. -/
def Written.child (f : ClassMap) (outer : Written) (name : String) : Written :=
  -- written once, for it grows with every suffix
  let old := outer.old ++ "$" ++ name
  { old, new := outer.new ++ "$" ++ innerImage f outer.new old name }

/-- The text of a piece under new names. -/
def Piece.render (f : ClassMap) : Piece → List Char
  | text s => s
  | outer name => (f.image name).toList
  | inner first before name =>
      (suffixImage f (before.foldl (Written.child f) ⟨first, f.image first⟩) name).toList

/-- Rename every class of a signature; `none` if the text is no signature. -/
def rename? (f : ClassMap) (signature : String) : Option String :=
  (pieces? signature.toList).map fun pieces => String.ofList (pieces.flatMap (Piece.render f))

end JarRemap.Signature
