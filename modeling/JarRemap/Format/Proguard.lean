import JarRemap.Text.Cut
import JarRemap.JavaType
import JarRemap.Namespace
import JarRemap.Format.LineReader

/-!
# Obfuscation logs

A log says what each Java name became: `a.B -> c:` for a class, and indented lines for its members,
whose types are written as in Java. Line numbers before and behind a method are left out, and so are
constructors and methods that were inlined from another class.
-/

namespace JarRemap.Format.Proguard

def isDigit (c : Char) : Bool := '0' ≤ c && c ≤ '9'

/-- Drop the line numbers `start:end:` before a member. -/
def dropLineNumbers (member : List Char) : List Char :=
  if (member.head?.map isDigit).getD false then
    match Text.cut? ':' member with
    | none => member
    | some (_, rest) =>
        match Text.cut? ':' rest with
        | none => member
        | some (_, rest) => rest
  else member

/-- Read a member of a class, written as a Java type and a name with or without arguments. -/
def memberLine (owner : String) (member obfuscated : List Char) : Except Fault (List Record) :=
  match Text.cut? ' ' (dropLineNumbers member) with
  | none => .error (.expected "a type and a name")
  | some (javaType, rest) =>
      let name := Text.trim rest
      match Text.cut? '(' name with
      | none =>
          .ok [fieldRecord owner (some (JavaType.descriptorOf javaType)) [name, obfuscated]]
      | some (method, behind) =>
          if method.contains ')' then .error .unclosedArguments
          else
            match Text.cut? ')' behind with
            | none => .error .unclosedArguments
            | some (arguments, _) =>
                if method.contains '.' || method.head? = some '<' then .ok []
                else .ok [methodRecord owner
                  (some (JavaType.methodDescriptorOf arguments javaType)) [method, obfuscated]]

/-- Read one line, inside of a class or of none. -/
def step : Step (Option String) := fun owner line =>
  if isRemark line then .ok (owner, [])
  else
    match Text.cutAt? " -> ".toList line with
    | none => .error .missingArrow
    | some (left, right) =>
        let old := Text.trim left
        let obfuscated := Text.trim right
        if (line.head?.map Text.isBlank).getD false then
          match owner with
          | none => .error (.outside "Member" "class")
          | some name => (memberLine name old obfuscated).map fun records => (owner, records)
        else
          match Text.stripEnd? [':'] obfuscated with
          | none => .error .missingColon
          | some obfuscated =>
              let old := Text.replace '.' '/' old
              .ok (some (String.ofList old),
                [typeRecord [old, Text.replace '.' '/' obfuscated]])

/-- Read an obfuscation log, from the published readable names to the official ones. -/
def parse (text : List Char) : Except LineFault Source := do
  let records ← readLines step none (Text.numberedLines text)
  return (Source.start Namespace.mojmap [Namespace.official]).pushAll records

end JarRemap.Format.Proguard
