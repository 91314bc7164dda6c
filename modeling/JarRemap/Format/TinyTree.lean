import JarRemap.Text.Cut
import JarRemap.Format.LineReader

/-!
# The nested tiny format

The second tiny format nests by leading tabs: members under their class, parameters and local
variables under their method, and comments under what they describe. Properties under the header
may say that names are escaped; comments always are. Local variables are read over, together with
their comments.
-/

namespace JarRemap.Format.TinyTree

/-- Undo the escapes of a text. A backslash before any other character stands for that character,
and one at the end for itself. -/
def unescape : List Char → List Char
  | '\\' :: c :: rest =>
      (match c with
        | 'n' => '\n'
        | 'r' => '\r'
        | 't' => '\t'
        | '0' => '\x00'
        | _ => c) :: unescape rest
  | c :: rest => c :: unescape rest
  | [] => []

/-- The namespaces of the first line. -/
def header : Option (List Char) → Except Fault (String × List String)
  | none => .error (.missingHeader "tiny 2")
  | some line =>
      if "tiny\t2\t".toList.isPrefixOf line then
        match (Text.splitOn '\t' line).drop 3 with
        | [] => .error .noNamespaces
        | key :: others => .ok (String.ofList key, others.map String.ofList)
      else .error (.missingHeader "tiny 2")

/-- Whether a line behind the header is a property: it begins with a tab. -/
def isProperty (line : List Char) : Bool := line.head? = some '\t'

/-- Whether a property says that names are escaped. -/
def saysEscaped (line : List Char) : Bool :=
  (Text.splitOn '\t' line.tail).head? = some "escaped-names".toList

/-- What a deeper line belongs to. -/
inductive Open where
  /-- The record at an index. -/
  | record (index : Nat)
  /-- A local variable. -/
  | variable
deriving DecidableEq, Repr

/-- What is known from the lines read. -/
structure State where
  escaped : Bool
  /-- How many namespaces there are. -/
  width : Nat
  records : Array Record
  /-- What is open at each depth, the outermost first. -/
  opened : List Open

/-- Append a record and open it. -/
def State.push (s : State) (r : Record) : State :=
  { s with
    records := s.records.push (r.fit s.width)
    opened := s.opened ++ [.record s.records.size] }

/-- Give the record at an index a comment. -/
def State.comment (s : State) (index : Nat) (text : List Char) : State :=
  let note (r : Record) : Record := { r with comment := some (String.ofList (unescape text)) }
  { s with records := s.records.modify index note }

/-- A name as it is written. -/
def State.readName (s : State) (raw : List Char) : Option String :=
  nameOrNone (if s.escaped then unescape raw else raw)

/-- Read a line whose first word is `kind`, inside of `parent`. -/
def entry (s : State) (kind : String) (parts : List (List Char)) (parent : Option Record) :
    Except Fault State :=
  match kind, parent.map Record.element with
  | "c", none =>
      if parts.isEmpty then .error .missingClassName
      else .ok (s.push ⟨.type, parts.map s.readName, none⟩)
  | "f", some .type =>
      match parts with
      | desc :: name :: names =>
          match parent.bind Record.key? with
          | none => .error .memberOfUnnamedClass
          | some owner => .ok (s.push
              ⟨.field owner (some (String.ofList desc)), (name :: names).map s.readName, none⟩)
      | _ => .error (.incomplete "member")
  | "m", some .type =>
      match parts with
      | desc :: name :: names =>
          match parent.bind Record.key? with
          | none => .error .memberOfUnnamedClass
          | some owner => .ok (s.push
              ⟨.method owner (some (String.ofList desc)), (name :: names).map s.readName, none⟩)
      | _ => .error (.incomplete "member")
  | "p", some (.method owner desc) =>
      match parts with
      | index :: names =>
          match parent.bind Record.key? with
          | none => .error .parameterOfUnnamedMethod
          | some method => do
              let index ← readIndex "parameter" index
              return s.push ⟨.param owner method desc index, names.map s.readName, none⟩
      | [] => .error (.incomplete "parameter")
  | "v", some (.method _ _) => .ok { s with opened := s.opened ++ [.variable] }
  | _, _ => .error (.unexpectedEntry kind)

/-- Read one line. -/
def step (s : State) (line : List Char) : Except Fault State :=
  if (Text.trim line).isEmpty then .ok s
  else
    let depth := (line.takeWhile (· = '\t')).length
    let parts := Text.splitOn '\t' (line.drop depth)
    let kind := String.ofList (parts.headD [])
    if s.opened.length < depth then .error .unexpectedIndentation
    else
      let s := { s with opened := s.opened.take depth }
      match s.opened.getLast? with
      | some .variable => if kind = "c" then .ok s else .error .entryInsideVariable
      | some (.record index) =>
          if kind = "c" then .ok (s.comment index (parts.getD 1 []))
          else entry s kind parts.tail s.records[index]?
      | none => entry s kind parts.tail none

/-- Read a text in the nested tiny format. -/
def parse (text : List Char) : Except LineFault Source := do
  let lines := Text.numberedLines text
  let (key, others) ← (header (lines.head?.map Prod.snd)).mapError (LineFault.mk 1)
  let properties := lines.tail.takeWhile fun line => isProperty line.2
  let rest := lines.tail.dropWhile fun line => isProperty line.2
  let escaped := properties.any fun line => saysEscaped line.2
  let source := Source.start key others
  let state ← foldLines step ⟨escaped, source.width, #[], []⟩ rest
  return { source with records := state.records.toList }

end JarRemap.Format.TinyTree
