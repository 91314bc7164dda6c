import JarRemap.Text.Cut

/-!
# Descriptors

A descriptor is the compiled form of a type: `La/B;` names a class, everything else is fixed. The
classes of a descriptor are renamed without reading the rest, so that a text that is no descriptor
comes back mostly unchanged.
-/

namespace JarRemap

/-- New names for some classes. -/
abbrev ClassMap := String → Option String

/-- The new name of a class, which stays if it has none. -/
def ClassMap.image (f : ClassMap) (name : String) : String := (f name).getD name

namespace Descriptor

/-- Rename the class names between an `L` and the next semicolon. The first argument is the class
name being read, last character first, or `none` outside a class name. A name that never ends is
kept. -/
def renameFrom (f : ClassMap) : Option (List Char) → List Char → List Char
  | none, [] => []
  | some name, [] => name.reverse
  | none, c :: rest => c :: renameFrom f (if c = 'L' then some [] else none) rest
  | some name, c :: rest =>
      if c = ';' then
        (f.image (String.ofList name.reverse)).toList ++ c :: renameFrom f none rest
      else renameFrom f (some (c :: name)) rest

def rename (f : ClassMap) (desc : String) : String :=
  String.ofList (renameFrom f none desc.toList)

def className? (desc : String) : Option String :=
  ((Text.stripStart? ['L'] desc.toList).bind (Text.stripEnd? [';'])).map String.ofList

end Descriptor

/-- Part a qualified name into its owner and its own name, at the last slash. -/
def splitQualified? (s : List Char) : Option (List Char × List Char) := Text.cutLast? '/' s

end JarRemap
