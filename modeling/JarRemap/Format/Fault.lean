import JarRemap.Format.Basic

/-!
# What can be wrong with a mapping source

A parser stops at the first line it cannot read and says why. Some sources are refused as a whole:
their format cannot be told, or needs a file name or a namespace that is not there.
-/

namespace JarRemap

/-- Why a line cannot be read. -/
inductive Fault where
  /-- The first line is not the header, which has the given name. -/
  | missingHeader (header : String)
  /-- The header names no namespace. -/
  | noNamespaces
  | missingClassName
  /-- A line of the given kind has too few columns. -/
  | incomplete (kind : String)
  /-- The first word of a line is none the format has. -/
  | unknownEntry (word : String)
  /-- The first word of a line cannot stand where it stands. -/
  | unexpectedEntry (word : String)
  | unexpectedIndentation
  | entryInsideVariable
  | memberOfUnnamedClass
  | parameterOfUnnamedMethod
  /-- An index that is no number of sixteen bits; parameters and arguments are the same thing. -/
  | invalidIndex (kind word : String)
  /-- A line is not of the given form. -/
  | expected (form : String)
  /-- A line of the given kind stands outside what it belongs to. -/
  | outside (kind container : String)
  /-- A line has not one name of the given kind for each namespace. -/
  | wrongNumber (kind : String)
  /-- A line begins as one of the given kind but has another number of words. -/
  | invalidLine (kind : String)
  /-- A qualified name without a slash. -/
  | invalidMember (word : String)
  /-- The target of a directive without a slash. -/
  | unqualified (kind : String)
  | unknownDirective (word : String)
  | commentWithoutElement
  /-- The text of a comment would begin inside a character. -/
  | commentInsideCharacter
  | missingArrow
  | missingColon
  | unclosedArguments
deriving DecidableEq, Repr

/-- The fault in words. -/
def Fault.message : Fault → String
  | missingHeader header => "Missing " ++ header ++ " header"
  | noNamespaces => "No namespaces"
  | missingClassName => "Missing class name"
  | incomplete kind => "Incomplete " ++ kind
  | unknownEntry word => "Unknown entry " ++ Text.quote word
  | unexpectedEntry word => "Unexpected entry " ++ Text.quote word
  | unexpectedIndentation => "Unexpected indentation"
  | entryInsideVariable => "Unexpected entry inside a local variable"
  | memberOfUnnamedClass => "Member of an unnamed class"
  | parameterOfUnnamedMethod => "Parameter of an unnamed method"
  | invalidIndex kind word => "Invalid " ++ kind ++ " index " ++ Text.quote word
  | expected form => "Expected " ++ form
  | outside kind container => kind ++ " outside of a " ++ container
  | wrongNumber kind => "Wrong number of " ++ kind ++ " names"
  | invalidLine kind => "Invalid " ++ kind ++ " line"
  | invalidMember word => "Invalid member " ++ Text.quote word
  | unqualified kind => "Unqualified " ++ kind
  | unknownDirective word => "Unknown directive " ++ Text.quote word
  | commentWithoutElement => "COMMENT without an element"
  | commentInsideCharacter => "COMMENT inside a character"
  | missingArrow => "Missing ->"
  | missingColon => "Class without a trailing colon"
  | unclosedArguments => "Unclosed argument list"

/-- A fault on a numbered line. -/
structure LineFault where
  line : Nat
  fault : Fault
deriving DecidableEq, Repr

/-- Why a mapping source is refused. -/
inductive FormatError where
  /-- No format fits the text of the named source. -/
  | undetected (file : String)
  /-- The format does not read files of this name. -/
  | unsupportedFile (format : Format) (file : String)
  /-- The tree lacks a namespace the format resolves its names in. -/
  | missingNamespace (format : Format) (name : String)
  /-- A line cannot be read. -/
  | malformed (format : Format) (fault : LineFault)
  /-- A row of a table lacks a column or has no number where one belongs. -/
  | malformedRow (format : Format) (line : Nat)
  /-- The text is not the JSON that the format asks for. -/
  | malformedJson (format : Format)
deriving DecidableEq, Repr

/-- The error in words. -/
def FormatError.message : FormatError → String
  | undetected file => "cannot detect mapping format of " ++ file
  | unsupportedFile format file =>
      "cannot process mapping format " ++ format.name ++ " for " ++ file
  | missingNamespace format name =>
      format.name ++ " mappings need the " ++ name ++ " namespace in the tree"
  | malformed format ⟨line, fault⟩ =>
      "Malformed " ++ format.name ++ " mappings on line " ++ toString line ++ ": " ++ fault.message
  | malformedRow format line =>
      "Malformed " ++ format.name ++ " mappings on line " ++ toString line
  | malformedJson format => "Malformed " ++ format.name ++ " mappings"

end JarRemap
