/-!
# Constants

The entries of a constant pool. They refer to each other by index; an index that leads nowhere, or
to a constant of the wrong kind, is no fault until something needs what it stands for.
-/

namespace JarRemap

/-- An entry of a constant pool. -/
inductive Constant where
  | utf8 (text : String)
  | integer (bits : UInt32)
  | float (bits : UInt32)
  | long (bits : UInt64)
  | double (bits : UInt64)
  | classRef (name : UInt16)
  | string (text : UInt16)
  | fieldRef (owner nameAndType : UInt16)
  | methodRef (owner nameAndType : UInt16)
  | interfaceMethodRef (owner nameAndType : UInt16)
  | nameAndType (name desc : UInt16)
  | methodHandle (kind : UInt8) (reference : UInt16)
  | methodType (desc : UInt16)
  | dynamic (bootstrap nameAndType : UInt16)
  | invokeDynamic (bootstrap nameAndType : UInt16)
  | module (name : UInt16)
  | package (name : UInt16)
  /-- The first slot of every pool, and the second slot of a wide constant. -/
  | unusable
deriving DecidableEq, Repr, Inhabited

def Constant.takesTwoSlots : Constant → Bool
  | long _ | double _ => true
  | _ => false

/-- The constants of a pool by index. -/
abbrev Constants := Array Constant

namespace Constants

def at? (cs : Constants) (index : UInt16) : Option Constant := cs[index.toNat]?

/-- The text at an index. -/
def utf8? (cs : Constants) (index : UInt16) : Option String :=
  match at? cs index with
  | some (.utf8 text) => some text
  | _ => none

def className? (cs : Constants) (index : UInt16) : Option String :=
  match at? cs index with
  | some (.classRef name) => utf8? cs name
  | _ => none

def nameAndType? (cs : Constants) (index : UInt16) : Option (String × String) :=
  match at? cs index with
  | some (.nameAndType name desc) => do return (← utf8? cs name, ← utf8? cs desc)
  | _ => none

end Constants

end JarRemap
