import JarRemap.Namespace
import JarRemap.Format.LineReader

/-!
# The nested class format

Classes may nest, and an inner class is written by its own name only: its full names are put
together from those of the classes around it. Arguments stand under their method; comments stand
under any element, line by line. A remark runs from a number sign to the end of the line, except in
a comment.
-/

namespace JarRemap.Format.Enigma

/-- A class that deeper lines may belong to, under its full names. -/
structure Outer where
  old : String
  named : Option String

/-- A method that arguments may belong to. -/
structure Method where
  owner : String
  name : String
  desc : String
  depth : Nat

/-- What is known from the lines read. -/
structure State where
  records : Array Record
  /-- The open classes, the outermost first. -/
  classes : List Outer
  /-- The index and the depth of the record that comments belong to. -/
  last : Option (Nat × Nat)
  method : Option Method

/-- The state before the first line. -/
def State.start : State := ⟨#[], [], none, none⟩

/-- Append a record, to which comments belong from now on. -/
def State.push (s : State) (depth : Nat) (r : Record) : State :=
  { s with records := s.records.push r, last := some (s.records.size, depth) }

/-- The full names of a class with a simple name and perhaps a readable one, inside of another. A
readable name with a slash is a full name; without a readable name of its own, a class has one only
if the class around it has. -/
def Outer.child (outer : Outer) (simple : String) (readable : Option String) : Outer where
  old := outer.old ++ "$" ++ simple
  named :=
    match outer.named, readable with
    | some around, some name =>
        some (if name.toList.contains '/' then name else around ++ "$" ++ name)
    | none, some name =>
        some (if name.toList.contains '/' then name else outer.old ++ "$" ++ name)
    | some around, none => some (around ++ "$" ++ simple)
    | none, none => none

def classLine (s : State) (depth : Nat) (simple : String) (readable : Option String) :
    Except Fault State :=
  if s.classes.length < depth then .error .unexpectedIndentation
  else
    let around := s.classes.take depth
    let opened := match around.getLast? with
      | some outer => outer.child simple readable
      | none => ⟨simple, readable⟩
    .ok { s.push depth ⟨.type, [some opened.old, opened.named], none⟩ with
      classes := around ++ [opened]
      method := none }

/-- Read a line that names a field or a method. -/
def memberLine (s : State) (depth : Nat) (kind : String) (words : List (List Char)) :
    Except Fault State :=
  match (s.classes.take depth).getLast? with
  | none => .error (.outside kind "class")
  | some outer =>
      if s.classes.length < depth then .error (.outside kind "class")
      else
        let s := { s with classes := s.classes.take depth }
        let add (name : List Char) (named : Option String) (desc : List Char) : State :=
          let (name, desc) := (String.ofList name, String.ofList desc)
          let names := [some name, named]
          if kind = "FIELD" then
            { s.push depth ⟨.field outer.old (some desc), names, none⟩ with method := none }
          else
            { s.push depth ⟨.method outer.old (some desc), names, none⟩ with
              method := some ⟨outer.old, name, desc, depth⟩ }
        match words with
        | [name, desc] => .ok (add name none desc)
        | [name, named, desc] => .ok (add name (some (String.ofList named)) desc)
        | _ => .error (.expected (kind ++ " obf [named] desc"))

/-- Read a line that names an argument. -/
def argumentLine (s : State) (depth : Nat) (words : List (List Char)) : Except Fault State :=
  match s.method.filter fun method => method.depth + 1 = depth with
  | none => .error (.outside "ARG" "method")
  | some method =>
      match words with
      | [index, name] => do
          let index ← readIndex "argument" index
          return s.push depth ⟨.param method.owner method.name (some method.desc) index,
            [none, some (String.ofList name)], none⟩
      | _ => .error (.expected "ARG index name")

def addComment (text : String) (r : Record) : Record :=
  { r with
    comment := some (match r.comment with
      | some before => before ++ "\n" ++ text
      | none => text) }

/-- The text without as many characters as take the given number of bytes; `none` if the number
falls inside a character. -/
def dropBytes? : Nat → List Char → Option (List Char)
  | 0, s => some s
  | _, [] => none
  | n, c :: rest => if c.utf8Size ≤ n then dropBytes? (n - c.utf8Size) rest else none

/-- Read a line of a comment, given with its blanks. -/
def commentLine (s : State) (depth : Nat) (line : List Char) : Except Fault State :=
  match s.last.filter fun last => last.2 < depth with
  | none => .error .commentWithoutElement
  | some (index, _) =>
      match dropBytes? "COMMENT".utf8ByteSize (Text.trimStart line) with
      | none => .error .commentInsideCharacter
      | some rest =>
          let text := String.ofList (Text.trimStart rest)
          .ok { s with records := s.records.modify index (addComment text) }

/-- The part of a line before a remark; a comment has none. -/
def content (line : List Char) : List Char :=
  if "COMMENT".toList.isPrefixOf (Text.trimStart line) then line
  else line.takeWhile fun c => c ≠ '#'

/-- The words of a line, without access modifiers. -/
def contentWords (line : List Char) : List (List Char) :=
  (Text.words (content line)).filter fun word => !"ACC:".toList.isPrefixOf word

/-- Read one line. -/
def step (s : State) (line : List Char) : Except Fault State :=
  match contentWords line with
  | [] => .ok s
  | kind :: words =>
      let kind := String.ofList kind
      let depth := Text.depth line
      match kind with
      | "CLASS" =>
          match words with
          | [simple] => classLine s depth (String.ofList simple) none
          | [simple, readable] =>
              classLine s depth (String.ofList simple) (some (String.ofList readable))
          | _ => .error (.expected "CLASS obf [named]")
      | "FIELD" | "METHOD" => memberLine s depth kind words
      | "ARG" => argumentLine s depth words
      | "COMMENT" => commentLine s depth line
      | _ => .error (.unknownEntry kind)

/-- Read a text in the nested class format, from the official names to the readable ones. -/
def parse (text : List Char) : Except LineFault Source := do
  let state ← foldLines step .start (Text.numberedLines text)
  let source := Source.start Namespace.official [Namespace.readable]
  return source.pushAll state.records.toList

end JarRemap.Format.Enigma
