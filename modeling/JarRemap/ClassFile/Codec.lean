import JarRemap.ClassFile.Basic
import JarRemap.ClassFile.ModifiedUtf8

/-!
# Reading and writing class files

A class file is read whole or refused: nothing may be left behind it, and its own name must be
there. Writing is the inverse, except that a length of more than sixteen bits is cut to sixteen.
-/

namespace JarRemap

/-- The mark a class file begins with. -/
def classMagic : Nat := 0xCAFEBABE

namespace Decoder

/-- Take a text with its length before it. -/
def text : Decoder String := do
  let length ← short
  let bytes ← take length.toNat
  match ModifiedUtf8.decode? bytes with
  | some s => return String.ofList s
  | none => throw .invalidText

/-- Take a constant. -/
def constant : Decoder Constant := do
  let tag ← byte
  match tag.toNat with
  | 1 => return .utf8 (← text)
  | 3 => return .integer (← word)
  | 4 => return .float (← word)
  | 5 => return .long (← long)
  | 6 => return .double (← long)
  | 7 => return .classRef (← short)
  | 8 => return .string (← short)
  | 9 => return .fieldRef (← short) (← short)
  | 10 => return .methodRef (← short) (← short)
  | 11 => return .interfaceMethodRef (← short) (← short)
  | 12 => return .nameAndType (← short) (← short)
  | 15 => return .methodHandle (← byte) (← short)
  | 16 => return .methodType (← short)
  | 17 => return .dynamic (← short) (← short)
  | 18 => return .invokeDynamic (← short) (← short)
  | 19 => return .module (← short)
  | 20 => return .package (← short)
  | n => throw (.unknownTag n)

/-- Take constants until so many slots are filled. -/
def constants : Nat → Decoder (List Constant)
  | 0 => pure []
  | slots + 1 => do
      let c ← constant
      if c.takesTwoSlots then
        match slots with
        | 0 => throw .wideOverflow
        | slots + 1 => return c :: .unusable :: (← constants slots)
      else return c :: (← constants slots)

/-- Take a pool: the number of its slots, the first of which is not written, and its constants. -/
def pool : Decoder Constants := do
  let count ← short
  match count.toNat with
  | 0 => throw .wideOverflow
  | slots + 1 => return (.unusable :: (← constants slots)).toArray

/-- Take an attribute as it is written. -/
def attributeBytes : Decoder (List UInt8) := do
  let name ← take 2
  let length ← take 4
  let body ← take (natOfBytes length)
  return name ++ length ++ body

/-- Take an attribute table as it is written. -/
def attributeTable : Decoder (List UInt8) := do
  let count ← take 2
  let table ← times (natOfBytes count) attributeBytes
  return count ++ table.flatten

/-- Take a member. -/
def member : Decoder Member := do
  return ⟨← short, ← short, ← short, ← attributeTable⟩

/-- Take a table of members. -/
def members : Decoder (List Member) := do
  times (← short).toNat member

/-- Take the numbers of the interfaces. -/
def interfaces : Decoder (List UInt16) := do
  times (← short).toNat short

def classFile : Decoder ClassFile := do
  let magic ← word
  if magic.toNat ≠ classMagic then throw .badMagic
  else
    return ⟨← short, ← short, ← pool, ← short, ← short, ← short, ← interfaces, ← members,
      ← members, ← attributeTable⟩

end Decoder

namespace Constant

/-- The bytes of a number of two bytes. -/
def shortBytes (n : UInt16) : List UInt8 := bytesOfNat 2 n.toNat

/-- The bytes of a tag and two numbers. -/
def pairBytes (tag : UInt8) (a b : UInt16) : List UInt8 := tag :: shortBytes a ++ shortBytes b

def toBytes : Constant → List UInt8
  | utf8 text =>
      let encoded := ModifiedUtf8.encode text.toList
      1 :: bytesOfNat 2 encoded.length ++ encoded
  | integer bits => 3 :: bytesOfNat 4 bits.toNat
  | float bits => 4 :: bytesOfNat 4 bits.toNat
  | long bits => 5 :: bytesOfNat 8 bits.toNat
  | double bits => 6 :: bytesOfNat 8 bits.toNat
  | classRef name => 7 :: shortBytes name
  | string text => 8 :: shortBytes text
  | fieldRef owner nt => pairBytes 9 owner nt
  | methodRef owner nt => pairBytes 10 owner nt
  | interfaceMethodRef owner nt => pairBytes 11 owner nt
  | nameAndType name desc => pairBytes 12 name desc
  | methodHandle kind reference => 15 :: kind :: shortBytes reference
  | methodType desc => 16 :: shortBytes desc
  | dynamic bootstrap nt => pairBytes 17 bootstrap nt
  | invokeDynamic bootstrap nt => pairBytes 18 bootstrap nt
  | module name => 19 :: shortBytes name
  | package name => 20 :: shortBytes name
  | unusable => []

end Constant

def Member.toBytes (m : Member) : List UInt8 :=
  bytesOfNat 2 m.access.toNat ++ bytesOfNat 2 m.name.toNat ++ bytesOfNat 2 m.desc.toNat ++
    m.attributes

def Member.tableBytes (members : List Member) : List UInt8 :=
  bytesOfNat 2 members.length ++ members.flatMap Member.toBytes

namespace ClassFile

def parse (bytes : List UInt8) : Except ClassFault ClassFile :=
  match Decoder.classFile ⟨bytes, 0⟩ with
  | .error e => .error e
  | .ok (c, rest) =>
      if !rest.rest.isEmpty then .error .trailingBytes
      else if (c.constants.className? c.thisClass).isNone then .error .missingThisClass
      else .ok c

def toBytes (c : ClassFile) : List UInt8 :=
  bytesOfNat 4 classMagic ++ bytesOfNat 2 c.minor.toNat ++ bytesOfNat 2 c.major.toNat ++
    bytesOfNat 2 c.constants.size ++ c.constants.toList.tail.flatMap Constant.toBytes ++
    bytesOfNat 2 c.access.toNat ++ bytesOfNat 2 c.thisClass.toNat ++
    bytesOfNat 2 c.superClass.toNat ++ bytesOfNat 2 c.interfaces.length ++
    c.interfaces.flatMap Constant.shortBytes ++ Member.tableBytes c.fields ++
    Member.tableBytes c.methods ++ c.attributes

end ClassFile

end JarRemap
