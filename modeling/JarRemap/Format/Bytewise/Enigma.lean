import JarRemap.Format.Bytewise.Reader
import JarRemap.Format.Enigma

/-!
# The nested class format by offsets and indices

Classes, the method that arguments belong to and the element that comments belong to are known by
their indices. A comment is what stands behind the first seven bytes of its line, blanks apart, for
its first word is taken to be `COMMENT`; but this is only the first word that is no access modifier.
-/

namespace JarRemap.Format.Bytewise.Enigma

open Checked (fail need at_ sub lift)
open JarRemap.Format.Enigma (Outer addComment)

variable {ε : Type}

/-- What is known from the lines read. -/
structure State where
  records : Array Record
  /-- The open classes, the outermost first. -/
  classes : List Outer
  /-- The index and the depth of the record that comments belong to. -/
  last : Option (Nat × Nat)
  /-- The index and the depth of the record of the method that arguments belong to. -/
  method : Option (Nat × Nat)

/-- The state before the first line. -/
def State.start : State := ⟨#[], [], none, none⟩

/-- Append a record, to which comments belong from now on. -/
def State.push (s : State) (depth : Nat) (r : Record) : Checked ε State := do
  let records := s.records.push r
  return { s with records, last := some (← sub records.size 1, depth) }

/-- Open a class inside of those of smaller depth. -/
def openClass (s : State) (depth : Nat) (simple : String) (readable : Option String) :
    Checked Fault State :=
  if s.classes.length < depth then fail .unexpectedIndentation
  else do
    let around := s.classes.take depth
    let opened := match around.getLast? with
      | some outer => outer.child simple readable
      | none => ⟨simple, readable⟩
    let s ← s.push depth ⟨.type, [some opened.old, opened.named], none⟩
    return { s with classes := around ++ [opened], method := none }

def classLine (s : State) (depth : Nat) (tokens : List (List Char)) : Checked Fault State := do
  if tokens.length < 2 ∨ 3 < tokens.length then fail (.expected "CLASS obf [named]")
  else openClass s depth (String.ofList (← at_ tokens 1)) (tokens[2]?.map String.ofList)

/-- The name, the readable name and the descriptor of a member. -/
def memberWords (kind : String) (tokens : List (List Char)) :
    Checked Fault (String × Option String × String) := do
  match tokens.length with
  | 3 => return (String.ofList (← at_ tokens 1), none, String.ofList (← at_ tokens 2))
  | 4 => return (String.ofList (← at_ tokens 1), some (String.ofList (← at_ tokens 2)),
      String.ofList (← at_ tokens 3))
  | _ => fail (.expected (kind ++ " obf [named] desc"))

/-- Add a field or a method to a class. -/
def addMember (s : State) (depth : Nat) (kind owner name : String) (named : Option String)
    (desc : String) : Checked Fault State := do
  let names := [some name, named]
  if kind = "FIELD" then
    let s ← s.push depth ⟨.field owner (some desc), names, none⟩
    return { s with method := none }
  else
    let s ← s.push depth ⟨.method owner (some desc), names, none⟩
    return { s with method := some (← sub s.records.size 1, depth) }

/-- Read a line that names a field or a method. -/
def memberLine (s : State) (depth : Nat) (kind : String) (tokens : List (List Char)) :
    Checked Fault State := do
  if depth = 0 ∨ s.classes.length < depth then fail (.outside kind "class")
  else
    let classes := s.classes.take depth
    let outer ← at_ classes (← sub depth 1)
    let (name, named, desc) ← memberWords kind tokens
    addMember { s with classes } depth kind outer.old name named desc

/-- Read a line that names an argument. -/
def argumentLine (s : State) (depth : Nat) (tokens : List (List Char)) : Checked Fault State := do
  match s.method.filter fun method => method.2 + 1 = depth with
  | none => fail (.outside "ARG" "method")
  | some (index, _) =>
      let record ← need .index s.records[index]?
      match record.element with
      | .method owner desc =>
          let method := record.key?.getD ""
          if tokens.length ≠ 3 then fail (.expected "ARG index name")
          else
            let index ← lift (readIndex "argument" (← at_ tokens 1))
            s.push depth ⟨.param owner method desc index,
              [none, some (String.ofList (← at_ tokens 2))], none⟩
      | _ => fail (.outside "ARG" "method")

/-- Read a line of a comment, given with its blanks. -/
def commentLine (s : State) (depth : Nat) (line : List Char) : Checked Fault State := do
  match s.last.filter fun last => last.2 < depth with
  | none => fail .commentWithoutElement
  | some (index, _) =>
      let text ← Text.behind (Text.trimStart line) "COMMENT".utf8ByteSize
      let _ ← need .index s.records[index]?
      let text := String.ofList (Text.trimStart text)
      return { s with records := s.records.modify index (addComment text) }

/-- The part of a line before a remark; a comment has none. -/
def content (line : List Char) : Checked ε (List Char) :=
  match Text.find? (· = '#') line with
  | none => return line
  | some remark =>
      if "COMMENT".toList.isPrefixOf (Text.trimStart line) then return line
      else Text.upTo line remark

/-- Read one line. -/
def step (s : State) (line : List Char) : Checked Fault State := do
  let tokens := (Text.words (← content line)).filter fun word => !"ACC:".toList.isPrefixOf word
  if tokens.isEmpty then return s
  else
    let kind := String.ofList (← at_ tokens 0)
    let depth := Text.depth line
    match kind with
    | "CLASS" => classLine s depth tokens
    | "FIELD" | "METHOD" => memberLine s depth kind tokens
    | "ARG" => argumentLine s depth tokens
    | "COMMENT" => commentLine s depth line
    | _ => fail (.unknownEntry kind)

/-- Read a text in the nested class format. -/
def parse (text : List Char) : Checked LineFault Source := do
  let state ← foldLines step .start (Text.numberedLines text)
  let source := Source.start Namespace.official [Namespace.readable]
  return source.pushAll state.records.toList

end JarRemap.Format.Bytewise.Enigma
