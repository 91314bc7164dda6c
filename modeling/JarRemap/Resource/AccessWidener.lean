import JarRemap.Dictionary
import JarRemap.Resource.Line

/-!
# Access wideners

A header that says in which namespace the file is written, and one entry a line: a class, or a
member with its owner and descriptor. Words are written with tabs between them, and the header names
the namespace the file is written in now.
-/

namespace JarRemap.Resource

/-- Why a line of an access widener is refused. -/
inductive WidenerFault where
  | notUtf8
  | missingHeader
  | unknownEntry
deriving DecidableEq, Repr

/-- Why an access widener is refused. -/
inductive WidenerError where
  /-- The header names another namespace than the one the file is expected in. -/
  | namespaceMismatch (file found expected : String)
  | malformed (file : String) (line : Nat) (fault : WidenerFault)
deriving DecidableEq, Repr

/-- The fault in words. -/
def WidenerFault.message : WidenerFault → String
  | notUtf8 => "Not UTF-8"
  | missingHeader => "Missing header"
  | unknownEntry => "Unknown entry"

/-- The error in words. -/
def WidenerError.message : WidenerError → String
  | namespaceMismatch file found expected =>
      "Access widener " ++ file ++ " targets " ++ found ++ ", but " ++ expected ++ " was expected"
  | malformed file line fault =>
      "Invalid access widener " ++ file ++ " at line " ++ toString line ++ ": " ++ fault.message

/-- Takes access wideners from one namespace to another, given by the words that headers use. -/
structure AccessWidener where
  source : String
  target : String
deriving DecidableEq, Repr

namespace AccessWidener

/-- Whether the name of a file is that of an access widener. -/
def accepts (name : String) : Bool := ".accesswidener".toList.isSuffixOf name.toList

/-- What is wrong with a header. -/
inductive HeaderFault where
  | missing
  | mismatch (found : String)

/-- The words of a header, with the new namespace. -/
def header (w : AccessWidener) : List (List Char) → Except HeaderFault (List (List Char))
  | [mark, version, found] =>
      if mark ≠ "accessWidener".toList then .error .missing
      else if String.ofList found ≠ w.source then .error (.mismatch (String.ofList found))
      else .ok [mark, version, w.target.toList]
  | _ => .error .missing

/-- The words of an entry under new names; `none` if it is no entry. -/
def entry? (d : Dictionary) (words : List (List Char)) : Option (List (List Char)) :=
  let owner (name : String) : List Char := (d.newClass?.image name).toList
  match words with
  | [access, kind, name] =>
      if kind = "class".toList then some [access, kind, owner (String.ofList name)] else none
  | [access, kind, declarer, name, desc] =>
      let declarer := String.ofList declarer
      let desc := String.ofList desc
      let member (renamed : Option String) : List (List Char) :=
        [access, kind, owner declarer, (renamed.getD (String.ofList name)).toList,
          (d.newDescriptor desc).toList]
      if kind = "method".toList then some (member (d.newMethod? declarer (String.ofList name) desc))
      else if kind = "field".toList then
        some (member (d.newField? declarer (String.ofList name) (some desc)))
      else none
  | _ => none

/-- Words with tabs between them. -/
def joined (words : List (List Char)) : List Char := ['\t'].intercalate words

/-- Rename in lines; `headed` says whether the header was read. -/
def lines (w : AccessWidener) (file : String) (d : Dictionary) (headed : Bool) :
    List Line → Except WidenerError (List Char)
  | [] => if headed then .ok [] else .error (.malformed file 1 .missingHeader)
  | l :: rest =>
      if l.words.isEmpty then (lines w file d headed rest).map (l.keep ++ ·)
      else if headed then
        match entry? d l.words with
        | none => .error (.malformed file l.number .unknownEntry)
        | some words => (lines w file d true rest).map (l.write '\t' (joined words) ++ ·)
      else
        match header w l.words with
        | .error .missing => .error (.malformed file l.number .missingHeader)
        | .error (.mismatch found) => .error (.namespaceMismatch file found w.source)
        | .ok words => (lines w file d true rest).map (l.write '\t' (joined words) ++ ·)

/-- Rename the symbols of an access widener. -/
def transform (w : AccessWidener) (file : String) (bytes : List UInt8) (d : Dictionary) :
    Except WidenerError (List UInt8) :=
  match Text.decode? bytes with
  | none => .error (.malformed file 1 .notUtf8)
  | some text => (lines w file d false (Line.all text)).map Text.encode

end AccessWidener

end JarRemap.Resource
