import JarRemap.Descriptor
import JarRemap.Namespace
import JarRemap.Format.LineReader

/-!
# Searge names line by line

Two formats in which every line stands for itself.
-/

/-!
## The flat searge format

One word says what a line names: `CL:` a class, `FD:` a field, `MD:` a method with descriptors, and
`PK:` a package, which carries no name of interest. Members are qualified by their owner.
-/

namespace JarRemap.Format.Srg

/-- The owner and the name of a member. -/
def member (word : List Char) : Except Fault (List Char × List Char) :=
  match splitQualified? word with
  | some parts => .ok parts
  | none => .error (.invalidMember (String.ofList word))

/-- Read the words of a line. -/
def entry (kind : String) (words : List (List Char)) : Except Fault (List Record) :=
  match kind, words with
  | "PK:", _ => .ok []
  | "CL:", [old, renamed] => .ok [typeRecord [old, renamed]]
  | "FD:", [old, renamed] => do
      let (owner, old) ← member old
      let (_, renamed) ← member renamed
      return [fieldRecord (String.ofList owner) none [old, renamed]]
  | "FD:", [old, desc, renamed, _] => do
      let (owner, old) ← member old
      let (_, renamed) ← member renamed
      return [fieldRecord (String.ofList owner) (some desc) [old, renamed]]
  | "MD:", [old, desc, renamed, _] => do
      let (owner, old) ← member old
      let (_, renamed) ← member renamed
      return [methodRecord (String.ofList owner) (some desc) [old, renamed]]
  | _, _ => .error (.invalidLine kind)

/-- Read one line. -/
def step : Step Unit := fun _ line =>
  if isRemark line then .ok ((), [])
  else
    let words := Text.words line
    (entry (String.ofList (words.headD [])) words.tail).map fun records => ((), records)

/-- Read a text in the flat searge format, from the official names to the searge names. -/
def parse (text : List Char) : Except LineFault Source := do
  let records ← readLines step () (Text.numberedLines text)
  return (Source.start Namespace.official [Namespace.searge]).pushAll records

end JarRemap.Format.Srg

/-!
## Obfuscation scripts

A script for the obfuscator that names symbols with its `_map` directives. The other directives
carry no names and are read over; new names of members may be qualified.
-/

namespace JarRemap.Format.Retroguard

/-- The name of a member that may be qualified. -/
def simpleName (word : List Char) : List Char := ((splitQualified? word).map Prod.snd).getD word

/-- The directives without names. -/
def otherDirectives : List String :=
  [".package_map", ".option", ".class", ".field", ".method", ".attribute", ".nowarn",
    ".repackage_map", ".multiple_accessor"]

/-- Read the words of a line. -/
def entry (kind : String) (words : List (List Char)) : Except Fault (List Record) :=
  match kind, words with
  | ".class_map", [old, renamed] => .ok [typeRecord [old, renamed]]
  | ".class_map", _ => .error (.expected ".class_map original renamed")
  | ".field_map", [old, renamed] =>
      match splitQualified? old with
      | none => .error (.unqualified "field")
      | some (owner, name) =>
          .ok [fieldRecord (String.ofList owner) none [name, simpleName renamed]]
  | ".field_map", _ => .error (.expected ".field_map owner/original renamed")
  | ".method_map", [old, desc, renamed] =>
      match splitQualified? old with
      | none => .error (.unqualified "method")
      | some (owner, name) =>
          .ok [methodRecord (String.ofList owner) (some desc) [name, simpleName renamed]]
  | ".method_map", _ => .error (.expected ".method_map owner/original desc renamed")
  | _, _ => if otherDirectives.contains kind then .ok [] else .error (.unknownDirective kind)

/-- Read one line. -/
def step : Step Unit := fun _ line =>
  if isRemark line then .ok ((), [])
  else
    let words := Text.words line
    (entry (String.ofList (words.headD [])) words.tail).map fun records => ((), records)

/-- Read a script, from the official names to the searge names. -/
def parse (text : List Char) : Except LineFault Source := do
  let records ← readLines step () (Text.numberedLines text)
  return (Source.start Namespace.official [Namespace.searge]).pushAll records

end JarRemap.Format.Retroguard
