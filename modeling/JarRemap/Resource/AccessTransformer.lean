import JarRemap.Dictionary
import JarRemap.Resource.Line

/-!
# Access transformers

A modifier and what it applies to: a class, or a member as a word of its own behind its owner. An
older layout writes owner and member as one word with a dot between them; it is read as well, and
written on request. Classes are written with dots in place of slashes.
-/

namespace JarRemap.Resource

/-- Why an access transformer is refused. -/
inductive TransformerFault where
  | notUtf8
  | noTarget
deriving DecidableEq, Repr

/-- A fault on a line of an access transformer. -/
structure TransformerError where
  file : String
  line : Nat
  fault : TransformerFault
deriving DecidableEq, Repr

/-- The fault in words. -/
def TransformerFault.message : TransformerFault → String
  | notUtf8 => "Not UTF-8"
  | noTarget => "Expected an access modifier and a target"

/-- The error in words. -/
def TransformerError.message (e : TransformerError) : String :=
  "Invalid access transformer " ++ e.file ++ " at line " ++ toString e.line ++ ": " ++
    e.fault.message

/-- What a modifier applies to. -/
inductive Target where
  | type (name : List Char)
  | member (owner member : List Char)
deriving DecidableEq, Repr

/-- Renames the symbols of access transformers. -/
structure AccessTransformer where
  /-- Whether owner and member are written as one word. -/
  legacy : Bool
deriving DecidableEq, Repr

namespace AccessTransformer

/-- Whether the name of a file is that of an access transformer. -/
def accepts (name : String) : Bool :=
  name = "META-INF/accesstransformer.cfg" || "_at.cfg".toList.isSuffixOf name.toList

def internal (name : List Char) : String := String.ofList (Text.replace '.' '/' name)

/-- What one word stands for. A word with a dot is a member if what stands behind the last dot has a
descriptor, or else if what stands before it is a class and the whole word is none. -/
def ofWord (d : Dictionary) (word : List Char) : Target :=
  match Text.cutLast? '.' word with
  | none => .type word
  | some (owner, name) =>
      if name.contains '(' then .member owner name
      else if (d.newClass? (internal word)).isNone && (d.newClass? (internal owner)).isSome then
        .member owner name
      else .type word

/-- The modifier and what it applies to. -/
def target? (d : Dictionary) : List (List Char) → Option (List Char × Target)
  | [modifier, owner, name] => some (modifier, .member owner name)
  | [modifier, word] => some (modifier, ofWord d word)
  | _ => none

/-- The new name of a class, with dots. -/
def renamedClass (d : Dictionary) (name : List Char) : List Char :=
  Text.replace '/' '.' (d.newClass?.image (internal name)).toList

/-- The new name of a member; an asterisk stands for all members and stays. -/
def renamedMember (d : Dictionary) (owner : String) (member : List Char) : List Char :=
  if member = "*".toList ∨ member = "*()".toList then member
  else
    let name := String.ofList (member.takeWhile (· ≠ '('))
    let desc := String.ofList (member.dropWhile (· ≠ '('))
    if desc.isEmpty then ((d.newField? owner name none).getD name).toList
    else ((d.newMethod? owner name desc).getD name).toList ++ (d.newDescriptor desc).toList

/-- What a modifier applies to, under its new name. -/
def write (t : AccessTransformer) (d : Dictionary) : Target → List Char
  | .type name => renamedClass d name
  | .member owner name =>
      renamedClass d owner ++ (if t.legacy then '.' else ' ') ::
        renamedMember d (internal owner) name

/-- Rename in lines. -/
def lines (t : AccessTransformer) (file : String) (d : Dictionary) :
    List Line → Except TransformerError (List Char)
  | [] => .ok []
  | l :: rest =>
      if l.words.isEmpty then (lines t file d rest).map (l.keep ++ ·)
      else
        match target? d l.words with
        | none => .error ⟨file, l.number, .noTarget⟩
        | some (modifier, target) =>
            (lines t file d rest).map (l.write ' ' (modifier ++ ' ' :: write t d target) ++ ·)

/-- Rename the symbols of an access transformer. -/
def transform (t : AccessTransformer) (file : String) (bytes : List UInt8) (d : Dictionary) :
    Except TransformerError (List UInt8) :=
  match Text.decode? bytes with
  | none => .error ⟨file, 1, .notUtf8⟩
  | some text => (lines t file d (Line.all text)).map Text.encode

end AccessTransformer

end JarRemap.Resource
