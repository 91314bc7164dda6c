import JarRemap.Format.Bytewise.Reader
import JarRemap.Format.Tiny
import JarRemap.Format.Srg
import JarRemap.Format.Tsrg

/-!
# Flat formats by indices

The formats in which a line needs at most the class that was read before it. The words of a line are
counted before they are asked for.
-/

namespace JarRemap.Format.Bytewise

open Checked (fail at_ from_ lift)

namespace Tiny

/-- Read the columns of a line. -/
def entry (parts : List (List Char)) : Checked Fault (List Record) := do
  let kind := String.ofList (← at_ parts 0)
  match kind with
  | "CLASS" =>
      if parts.length < 2 then fail .missingClassName
      else return [typeRecord (← from_ parts 1)]
  | "FIELD" | "METHOD" =>
      if parts.length < 4 then fail (.incomplete kind)
      else
        let owner := String.ofList (← at_ parts 1)
        let desc ← at_ parts 2
        let names ← from_ parts 3
        if kind = "FIELD" then return [fieldRecord owner (some desc) names]
        else return [methodRecord owner (some desc) names]
  | _ => fail (.unknownEntry kind)

/-- Read one line. -/
def step : Step Unit := fun _ line =>
  if line.isEmpty || line.head? = some '#' then return ((), [])
  else return ((), ← entry (Text.splitOn '\t' line))

/-- Read a text in the flat tiny format. -/
def parse (text : List Char) : Checked LineFault Source := do
  let lines := Text.numberedLines text
  let (key, others) ← onLine 1 (lift (Format.Tiny.header (lines.head?.map Prod.snd)))
  let records ← readLines step () lines.tail
  return (Source.start key others).pushAll records

end Tiny

namespace Srg

/-- The owner and the name of a member. -/
def member (word : List Char) : Checked Fault (List Char × List Char) := do
  match ← splitMember? word with
  | some parts => return parts
  | none => fail (.invalidMember (String.ofList word))

/-- Read the words of a line. -/
def entry (tokens : List (List Char)) : Checked Fault (List Record) := do
  let kind := String.ofList (← at_ tokens 0)
  match kind, tokens.length with
  | "PK:", _ => return []
  | "CL:", 3 => return [typeRecord [← at_ tokens 1, ← at_ tokens 2]]
  | "FD:", 3 => do
      let (owner, old) ← member (← at_ tokens 1)
      let (_, renamed) ← member (← at_ tokens 2)
      return [fieldRecord (String.ofList owner) none [old, renamed]]
  | "FD:", 5 => do
      let (owner, old) ← member (← at_ tokens 1)
      let (_, renamed) ← member (← at_ tokens 3)
      return [fieldRecord (String.ofList owner) (some (← at_ tokens 2)) [old, renamed]]
  | "MD:", 5 => do
      let (owner, old) ← member (← at_ tokens 1)
      let (_, renamed) ← member (← at_ tokens 3)
      return [methodRecord (String.ofList owner) (some (← at_ tokens 2)) [old, renamed]]
  | _, _ => fail (.invalidLine kind)

/-- Read one line. -/
def step : Step Unit := fun _ line =>
  if isRemark line then return ((), []) else return ((), ← entry (Text.words line))

/-- Read a text in the flat searge format. -/
def parse (text : List Char) : Checked LineFault Source := do
  let records ← readLines step () (Text.numberedLines text)
  return (Source.start Namespace.official [Namespace.searge]).pushAll records

end Srg

namespace Retroguard

/-- The name of a member that may be qualified. -/
def simpleName {ε : Type} (word : List Char) : Checked ε (List Char) := do
  return ((← splitMember? word).map Prod.snd).getD word

/-- Read the words of a line. -/
def entry (tokens : List (List Char)) : Checked Fault (List Record) := do
  let kind := String.ofList (← at_ tokens 0)
  match kind with
  | ".class_map" =>
      if tokens.length ≠ 3 then fail (.expected ".class_map original renamed")
      else return [typeRecord [← at_ tokens 1, ← at_ tokens 2]]
  | ".field_map" =>
      if tokens.length ≠ 3 then fail (.expected ".field_map owner/original renamed")
      else
        match ← splitMember? (← at_ tokens 1) with
        | none => fail (.unqualified "field")
        | some (owner, name) =>
            let renamed ← simpleName (← at_ tokens 2)
            return [fieldRecord (String.ofList owner) none [name, renamed]]
  | ".method_map" =>
      if tokens.length ≠ 4 then fail (.expected ".method_map owner/original desc renamed")
      else
        match ← splitMember? (← at_ tokens 1) with
        | none => fail (.unqualified "method")
        | some (owner, name) =>
            let desc ← at_ tokens 2
            let renamed ← simpleName (← at_ tokens 3)
            return [methodRecord (String.ofList owner) (some desc) [name, renamed]]
  | _ =>
      if Format.Retroguard.otherDirectives.contains kind then return []
      else fail (.unknownDirective kind)

/-- Read one line. -/
def step : Step Unit := fun _ line =>
  if isRemark line then return ((), []) else return ((), ← entry (Text.words line))

/-- Read a script. -/
def parse (text : List Char) : Checked LineFault Source := do
  let records ← readLines step () (Text.numberedLines text)
  return (Source.start Namespace.official [Namespace.searge]).pushAll records

end Retroguard

namespace Tsrg

/-- Whether the first word of a line names a package. -/
def isPackage {ε : Type} (tokens : List (List Char)) : Checked ε Bool := do
  return (← at_ tokens 0).getLast? = some '/'

/-- Read the words of a line, inside of a class or of none. -/
def entry (depth : Nat) (owner : Option String) (tokens : List (List Char)) :
    Checked Fault (Option String × List Record) := do
  if depth = 0 then
    if ← isPackage tokens then return (none, [])
    else if tokens.length ≠ 2 then fail (.expected "a class and its name")
    else return (some (String.ofList (← at_ tokens 0)), [typeRecord tokens])
  else
    match owner with
    | none => fail (.outside "Member" "class")
    | some name =>
        match tokens.length with
        | 2 => return (owner, [fieldRecord name none tokens])
        | 3 =>
            let desc ← at_ tokens 1
            return (owner, [methodRecord name (some desc) [← at_ tokens 0, ← at_ tokens 2]])
        | _ => fail (.expected "a field or method")

/-- Read one line of the first format, inside of a class or of none. -/
def step : Step (Option String) := fun owner line =>
  if isRemark line then return (owner, [])
  else entry (Text.depth line) owner (Text.words line)

/-- Read a text in the first format. -/
def parse (text : List Char) : Checked LineFault Source := do
  let records ← readLines step none (Text.numberedLines text)
  return (Source.start Namespace.official [Namespace.searge]).pushAll records

end Tsrg

end JarRemap.Format.Bytewise
