import JarRemap.Namespace
import JarRemap.Format.LineReader

/-!
# The nested searge formats

Members are indented under their class. The first format has two namespaces and tells a method by
its three words; the second names its namespaces in a header, gives each member a name in all of
them, and lists parameters under their method. Package lines end in a slash.
-/

namespace JarRemap.Format.Tsrg

/-- Whether the words of a line name a package. -/
def isPackage (words : List (List Char)) : Bool := (words.headD []).getLast? = some '/'

/-- Read one line of the first format, inside of a class or of none. -/
def step : Step (Option String) := fun owner line =>
  if isRemark line then .ok (owner, [])
  else
    let words := Text.words line
    if Text.depth line = 0 then
      if isPackage words then .ok (none, [])
      else
        match words with
        | [old, renamed] =>
            .ok (some (String.ofList old), [typeRecord [old, renamed]])
        | _ => .error (.expected "a class and its name")
    else
      match owner with
      | none => .error (.outside "Member" "class")
      | some name =>
          match words with
          | [old, renamed] => .ok (owner, [fieldRecord name none [old, renamed]])
          | [old, desc, renamed] =>
              .ok (owner, [methodRecord name (some desc) [old, renamed]])
          | _ => .error (.expected "a field or method")

/-- Read a text in the first format, from the official names to the searge names. -/
def parse (text : List Char) : Except LineFault Source := do
  let records ← readLines step none (Text.numberedLines text)
  return (Source.start Namespace.official [Namespace.searge]).pushAll records

namespace Wide

/-- The method that parameters belong to. -/
structure Method where
  owner : String
  name : String
  desc : Option String

/-- The class and the method that deeper lines belong to. -/
structure State where
  owner : Option String := none
  method : Option Method := none

/-- The namespaces of the first line. -/
def header : Option (List Char) → Except Fault (String × List String)
  | none => .error (.missingHeader "tsrg2")
  | some line =>
      if "tsrg2 ".toList.isPrefixOf line then
        match (Text.words line).tail with
        | [] => .error .noNamespaces
        | key :: others => .ok (String.ofList key, others.map String.ofList)
      else .error (.missingHeader "tsrg2")

/-- Read a line that names a class or a package. -/
def typeLine (width : Nat) (words : List (List Char)) : Except Fault (State × List Record) :=
  if isPackage words then .ok ({}, [])
  else if words.length ≠ width then .error (.wrongNumber "class")
  else .ok (⟨some (String.ofList (words.headD [])), none⟩, [typeRecord words])

/-- Read a line that names a member of a class. -/
def memberLine (width : Nat) (owner : String) (words : List (List Char)) :
    Except Fault (State × List Record) :=
  let state : State := ⟨some owner, none⟩
  if words.length = width then .ok (state, [fieldRecord owner none words])
  else if words.length = width + 1 then
    match words with
    | old :: desc :: names =>
        if desc.head? = some '(' then
          .ok (⟨some owner, some ⟨owner, String.ofList old, some (String.ofList desc)⟩⟩,
            [methodRecord owner (some desc) (old :: names)])
        else .ok (state, [fieldRecord owner (some desc) (old :: names)])
    | _ => .error (.wrongNumber "member")
  else .error (.wrongNumber "member")

/-- Read a line under a method. -/
def parameterLine (width : Nat) (state : State) (words : List (List Char)) :
    Except Fault (State × List Record) :=
  if words = ["static".toList] then .ok (state, [])
  else
    match state.method with
    | none => .error (.outside "Parameter" "method")
    | some method =>
        if words.length ≠ width + 1 then .error (.wrongNumber "parameter")
        else do
          let index ← readIndex "parameter" (words.headD [])
          return (state, [⟨.param method.owner method.name method.desc index,
            words.tail.map nameOrNone, none⟩])

/-- Read one line of the second format. -/
def step (width : Nat) : Step State := fun state line =>
  if isRemark line then .ok (state, [])
  else
    let words := Text.words line
    match Text.depth line with
    | 0 => typeLine width words
    | 1 =>
        match state.owner with
        | none => .error (.outside "Member" "class")
        | some owner => memberLine width owner words
    | 2 => parameterLine width state words
    | _ => .error .unexpectedIndentation

/-- Read a text in the second format. -/
def parse (text : List Char) : Except LineFault Source := do
  let lines := Text.numberedLines text
  let (key, others) ← (header (lines.head?.map Prod.snd)).mapError (LineFault.mk 1)
  let source := Source.start key others
  let records ← readLines (step source.width) {} lines.tail
  return source.pushAll records

end Wide

end JarRemap.Format.Tsrg
