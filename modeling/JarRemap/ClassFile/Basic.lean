import JarRemap.ClassFile.Constant
import JarRemap.ClassFile.Decoder

/-!
# Class files

Just enough of a class file to rename symbols: the pool and the member tables are taken apart, the
attribute tables are kept as bytes.
-/

namespace JarRemap

/-- A field or a method. -/
structure Member where
  access : UInt16
  name : UInt16
  desc : UInt16
  /-- The attribute table as it is written. -/
  attributes : List UInt8
deriving DecidableEq, Repr

/-- A class file. -/
structure ClassFile where
  minor : UInt16
  major : UInt16
  constants : Constants
  access : UInt16
  thisClass : UInt16
  superClass : UInt16
  interfaces : List UInt16
  fields : List Member
  methods : List Member
  /-- The attribute table as it is written. -/
  attributes : List UInt8
deriving DecidableEq, Repr

namespace ClassFile

def name (c : ClassFile) : String := (c.constants.className? c.thisClass).getD ""

def superName? (c : ClassFile) : Option String := c.constants.className? c.superClass

def interfaceNames (c : ClassFile) : List String := c.interfaces.filterMap c.constants.className?

/-- The name and the descriptor of a member. -/
def memberNames? (constants : Constants) (m : Member) : Option (String × String) := do
  return (← constants.utf8? m.name, ← constants.utf8? m.desc)

/-- The body of the first attribute of a name among so many attributes; `none` also if the table is
cut off before it. -/
def findBody? (constants : Constants) (name : String) : Nat → Cursor → Option (List UInt8)
  | 0, _ => none
  | count + 1, c =>
      match (do return (← Decoder.short, ← Decoder.take (← Decoder.word).toNat)) c with
      | .error _ => none
      | .ok ((index, body), c) =>
          if constants.utf8? index = some name then some body
          else findBody? constants name count c

def findAttribute? (constants : Constants) (table : List UInt8) (name : String) :
    Option (List UInt8) :=
  match Decoder.short ⟨table, 0⟩ with
  | .error _ => none
  | .ok (count, c) => findBody? constants name count.toNat c

end ClassFile

end JarRemap
