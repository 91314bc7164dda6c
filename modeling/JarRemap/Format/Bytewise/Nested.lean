import JarRemap.Format.Bytewise.Flat
import JarRemap.Format.TinyTree

/-!
# Nested formats by indices

In the nested searge format a parameter finds its method by the index of the record of the method;
in the nested tiny format every line finds the record it belongs to by its index.
-/

namespace JarRemap.Format.Bytewise

open Checked (fail need at_ from_ sub lift)

namespace Tsrg.Wide

/-- What is known from the lines read. -/
structure State where
  records : Array Record := #[]
  /-- The class that members belong to. -/
  owner : Option String := none
  /-- The index of the record of the method that parameters belong to. -/
  method : Option Nat := none

/-- Append a record, with exactly one name for each namespace. -/
def State.push (s : State) (width : Nat) (r : Record) : State :=
  { s with records := s.records.push (r.fit width) }

/-- Read a line that names a class or a package. -/
def typeLine (width : Nat) (s : State) (tokens : List (List Char)) : Checked Fault State := do
  if ← isPackage tokens then return { s with owner := none, method := none }
  else if tokens.length ≠ width then fail (.wrongNumber "class")
  else
    let owner := String.ofList (← at_ tokens 0)
    return { s.push width (typeRecord tokens) with owner := some owner, method := none }

/-- Read a line that names a member of a class. -/
def memberLine (width : Nat) (s : State) (owner : String) (tokens : List (List Char)) :
    Checked Fault State := do
  let s := { s with method := none }
  if tokens.length = width then return s.push width (fieldRecord owner none tokens)
  else if tokens.length = width + 1 then
    let names := (← at_ tokens 0) :: (← from_ tokens 2)
    let desc ← at_ tokens 1
    if desc.head? = some '(' then
      let s := s.push width (methodRecord owner (some desc) names)
      return { s with method := some (← sub s.records.size 1) }
    else return s.push width (fieldRecord owner (some desc) names)
  else fail (.wrongNumber "member")

/-- Read a line under a method. -/
def parameterLine (width : Nat) (s : State) (tokens : List (List Char)) : Checked Fault State := do
  if tokens = ["static".toList] then return s
  else
    match s.method with
    | none => fail (.outside "Parameter" "method")
    | some method =>
        let record ← need .index s.records[method]?
        match record.element with
        | .method owner desc =>
            let name := (← at_ record.names 0).getD ""
            if tokens.length ≠ width + 1 then fail (.wrongNumber "parameter")
            else
              let index ← lift (readIndex "parameter" (← at_ tokens 0))
              let names := (← from_ tokens 1).map nameOrNone
              return s.push width ⟨.param owner name desc index, names, none⟩
        | _ => fail (.outside "Parameter" "method")

/-- Read one line of the second format. -/
def step (width : Nat) (s : State) (line : List Char) : Checked Fault State :=
  if isRemark line then return s
  else
    let tokens := Text.words line
    match Text.depth line with
    | 0 => typeLine width s tokens
    | 1 =>
        match s.owner with
        | none => fail (.outside "Member" "class")
        | some owner => memberLine width s owner tokens
    | 2 => parameterLine width s tokens
    | _ => fail .unexpectedIndentation

/-- Read a text in the second format. -/
def parse (text : List Char) : Checked LineFault Source := do
  let lines := Text.numberedLines text
  let (key, others) ← onLine 1 (lift (Format.Tsrg.Wide.header (lines.head?.map Prod.snd)))
  let source := Source.start key others
  let state ← foldLines (step source.width) {} lines.tail
  return { source with records := state.records.toList }

end Tsrg.Wide

namespace TinyTree

open JarRemap.Format.TinyTree (State Open header isProperty unescape)

variable {ε : Type}

/-- Whether a property says that names are escaped. -/
def saysEscaped (line : List Char) : Checked ε Bool := do
  return (Text.splitOn '\t' (← Text.behind line 1)).head? = some "escaped-names".toList

/-- Append a record and open it. -/
def push (s : State) (r : Record) : Checked ε State := do
  let records := s.records.push (r.fit s.width)
  let index ← sub records.size 1
  return { s with records, opened := s.opened ++ [.record index] }

/-- Give the record at an index a comment. -/
def comment (s : State) (index : Nat) (text : List Char) : Checked ε State := do
  let _ ← need .index s.records[index]?
  return s.comment index text

/-- Read the columns of a line, inside of `parent`. -/
def entry (s : State) (parts : List (List Char)) (parent : Option Record) :
    Checked Fault State := do
  let kind := String.ofList (← at_ parts 0)
  match kind, parent.map Record.element with
  | "c", none =>
      if parts.length < 2 then fail .missingClassName
      else push s ⟨.type, (← from_ parts 1).map s.readName, none⟩
  | "f", some .type | "m", some .type =>
      if parts.length < 3 then fail (.incomplete "member")
      else
        match parent.bind Record.key? with
        | none => fail .memberOfUnnamedClass
        | some owner =>
            let desc := some (String.ofList (← at_ parts 1))
            let element : Element := if kind = "f" then .field owner desc else .method owner desc
            push s ⟨element, (← from_ parts 2).map s.readName, none⟩
  | "p", some (.method owner desc) =>
      if parts.length < 2 then fail (.incomplete "parameter")
      else
        match parent.bind Record.key? with
        | none => fail .parameterOfUnnamedMethod
        | some method =>
            let index ← lift (readIndex "parameter" (← at_ parts 1))
            push s ⟨.param owner method desc index, (← from_ parts 2).map s.readName, none⟩
  | "v", some (.method _ _) => return { s with opened := s.opened ++ [.variable] }
  | _, _ => fail (.unexpectedEntry kind)

/-- Read one line. -/
def step (s : State) (line : List Char) : Checked Fault State := do
  if (Text.trim line).isEmpty then return s
  else
    let depth := (line.takeWhile (· = '\t')).length
    let parts := Text.splitOn '\t' (← Text.behind line depth)
    if s.opened.length < depth then fail .unexpectedIndentation
    else
      let s := { s with opened := s.opened.take depth }
      let kind := String.ofList (← at_ parts 0)
      match s.opened.getLast? with
      | some .variable => if kind = "c" then return s else fail .entryInsideVariable
      | some (.record index) =>
          let parent ← need .index s.records[index]?
          if kind = "c" then comment s index (parts[1]?.getD [])
          else entry s parts (some parent)
      | none => entry s parts none

/-- Read a text in the nested tiny format. -/
def parse (text : List Char) : Checked LineFault Source := do
  let lines := Text.numberedLines text
  let (key, others) ← onLine 1 (lift (header (lines.head?.map Prod.snd)))
  let properties := lines.tail.takeWhile fun line => isProperty line.2
  let rest := lines.tail.dropWhile fun line => isProperty line.2
  let escaped ← properties.mapM fun line => saysEscaped line.2
  let source := Source.start key others
  let state ← foldLines step ⟨escaped.any id, source.width, #[], []⟩ rest
  return { source with records := state.records.toList }

end TinyTree

end JarRemap.Format.Bytewise
