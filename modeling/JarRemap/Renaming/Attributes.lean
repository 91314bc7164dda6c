import JarRemap.ClassFile.Decoder
import JarRemap.ClassFile.Pool
import JarRemap.Resolver

/-!
# Renaming in attributes

Attributes name symbols by the indexes of constants, so renaming replaces indexes and changes no
length. A table is copied from front to back: what holds no symbol is copied as it stands, and an
index of a renamed symbol is replaced by the index of its new name. Lookups go by the names before
any class is renamed.
-/

namespace JarRemap.Attributes

/-- A table that is being copied. -/
structure State where
  pool : Pool
  /-- What is still to be copied. -/
  cursor : Cursor
  /-- What was copied, last byte first. -/
  copied : List UInt8 := []

/-- Computations that copy a part of a table. -/
abbrev Copy := ExceptT ClassFault (StateM State)

/-- Take bytes without copying them. -/
def take (count : Nat) : Copy (List UInt8) := fun s =>
  match s.cursor.take? count with
  | some (bytes, cursor) => (.ok bytes, { s with cursor })
  | none => (.error (.truncatedAttribute s.cursor.offset), s)

/-- Write bytes. -/
def emit (bytes : List UInt8) : Copy Unit :=
  modify fun s => { s with copied := bytes.reverse ++ s.copied }

/-- Copy bytes. -/
def copy (count : Nat) : Copy Unit := do emit (← take count)

/-- Copy a number of so many bytes, and give it. -/
def number (bytes : Nat) : Copy Nat := do
  let taken ← take bytes
  emit taken
  return natOfBytes taken

/-- Take a number of indexes, which must all be there. -/
def indexes (count : Nat) : Copy (List UInt16) := do
  let rec pairs : List UInt8 → List UInt16
    | a :: b :: rest => (natOfBytes [a, b]).toUInt16 :: pairs rest
    | _ => []
  return pairs (← take (2 * count))

/-- Write an index. -/
def emitIndex (index : UInt16) : Copy Unit := emit (bytesOfNat 2 index.toNat)

/-- The constants as they are now. -/
def constants : Copy Constants := do return (← get).pool.constants

/-- Append to the pool. -/
def withPool {α : Type} (f : WithPool α) : Copy α := fun ⟨pool, cursor, copied⟩ =>
  let (result, pool) := f pool
  (result, ⟨pool, cursor, copied⟩)

/-- The index of the new text for the text at an index; the same index if there is no text, or no
other one. -/
def renamedIndex (index : UInt16) (rename : String → Option String) : Copy UInt16 := do
  match (← constants).utf8? index with
  | none => return index
  | some text =>
      match (rename text).filter (· ≠ text) with
      | none => return index
      | some renamed => withPool (Pool.internText renamed)

/-- Copy the index of a text under its new text, and give the old text. -/
def renamedText (rename : String → Option String) : Copy (Option String) := do
  let index := (← indexes 1).headD 0
  let text := (← constants).utf8? index
  emitIndex (← renamedIndex index rename)
  return text

/-- Do something a number of times. -/
def times : Nat → Copy Unit → Copy Unit
  | 0, _ => pure ()
  | n + 1, c => do
      c
      times n c

def counted (size : Nat) (item : Copy Unit) : Copy Unit := do times (← number size) item

section

variable (resolver : Resolver) (owner : String)

def descriptor : Copy Unit := do
  let _ ← renamedText fun desc => some (resolver.newDescriptor desc)

/-- Copy the index of a signature, which stays if it is malformed. -/
def signature : Copy Unit := do
  let _ ← renamedText resolver.newSignature?

/-- Copy a constant of an enumeration: the index of its type and that of its name. -/
def enumConstant : Copy Unit := do
  match ← indexes 2 with
  | [type, name] =>
      let desc := (← constants).utf8? type
      emitIndex (← renamedIndex type fun desc => some (resolver.newDescriptor desc))
      match desc.bind fun desc => (Descriptor.className? desc).map (desc, ·) with
      | some (desc, declarer) =>
          emitIndex (← renamedIndex name fun constant =>
            resolver.newField? declarer constant (some desc))
      | none => emitIndex name
  | _ => pure ()

mutual

/-- Copy an annotation: its type, and its elements, which are methods of the type. The number bounds
how deep annotations are nested. -/
def annotationEntry : Nat → Copy Unit
  | 0 => pure ()
  | depth + 1 => do
      let desc ← renamedText fun desc => some (resolver.newDescriptor desc)
      let type := desc.bind Descriptor.className?
      counted 2 do
        let _ ← renamedText fun element =>
          type.bind fun type => resolver.newMethodNamed? type element
        elementValue depth

def elementValue : Nat → Copy Unit
  | 0 => pure ()
  | depth + 1 => do
      let tag ← number 1
      match Char.ofNat tag with
      | 'B' | 'C' | 'D' | 'F' | 'I' | 'J' | 'S' | 'Z' | 's' => copy 2
      | 'e' => enumConstant resolver
      | 'c' => descriptor resolver
      | '@' => annotationEntry depth
      | '[' => counted 2 (elementValue depth)
      | _ => throw (.unknownElementTag tag)

end

/-- Copy an annotation of a type: the place of the type, the path into it, and the annotation. -/
def typeAnnotationEntry (depth : Nat) : Copy Unit := do
  let target ← number 1
  if target = 0x00 ∨ target = 0x01 ∨ target = 0x16 then copy 1
  else if (0x10 ≤ target ∧ target ≤ 0x12) ∨ target = 0x17 ∨ (0x42 ≤ target ∧ target ≤ 0x46) then
    copy 2
  else if 0x13 ≤ target ∧ target ≤ 0x15 then pure ()
  else if target = 0x40 ∨ target = 0x41 then copy ((← number 2) * 6)
  else if 0x47 ≤ target ∧ target ≤ 0x4B then copy 3
  else throw (.unknownTarget target)
  copy ((← number 1) * 2)
  annotationEntry resolver depth

/-- Copy the method that a class is declared in, if there is one. -/
def enclosingMethod : Copy Unit := do
  match ← indexes 2 with
  | [declarer, method] =>
      emitIndex declarer
      if method = 0 then emitIndex method
      else
        match (← constants).className? declarer, (← constants).nameAndType? method with
        | some declarer, some (name, desc) =>
            let renamed := (resolver.newMethod? declarer name desc).getD name
            emitIndex (← withPool (Pool.internPair renamed (resolver.newDescriptor desc)))
        | _, _ => emitIndex method
  | _ => pure ()

/-- The name of a nested class without those around it. -/
def simpleName (name : String) : String :=
  String.ofList (Text.behindLast (fun c => c = '$' || c = '/') name.toList)

/-- Copy a nested class: itself, the class around it, its simple name and its flags. -/
def innerClass : Copy Unit := do
  match ← indexes 4 with
  | [inner, outer, simple, flags] =>
      emitIndex inner
      emitIndex outer
      let renamed := ((← constants).className? inner).bind resolver.newClass?
      match renamed with
      | some renamed =>
          if simple = 0 then emitIndex simple
          else emitIndex (← renamedIndex simple fun _ => some (simpleName renamed))
      | none => emitIndex simple
      emitIndex flags
  | _ => pure ()

/-- Copy the name and the descriptor of a component of a record. -/
def recordComponent : Copy Unit := do
  match ← indexes 2 with
  | [name, type] =>
      match (← constants).utf8? type with
      | some desc =>
          emitIndex (← renamedIndex name fun name => resolver.newField? owner name (some desc))
      | none => emitIndex name
      emitIndex (← renamedIndex type fun desc => some (resolver.newDescriptor desc))
  | _ => pure ()

/-- Copy a variable: where it is known, its name, its type and its place. -/
def localVariable (type : Copy Unit) : Copy Unit := do
  copy 6
  type
  copy 2

/-- Copy an attribute: its name and its length as they stand, then its contents, and what they leave
of it as it stands. -/
def attributeEntry (contents : String → Copy Unit) : Copy Unit := do
  let name := (natOfBytes (← take 2)).toUInt16
  emitIndex name
  let length ← number 4
  let before := (← get).cursor
  if before.rest.length < length then throw .truncatedTable
  else
    let name := ((← constants).utf8? name).getD ""
    contents name
    let behind := (← get).cursor
    if before.offset + length < behind.offset then throw (.overlongAttribute name)
    else copy (before.offset + length - behind.offset)

mutual

/-- Copy an attribute table. The number bounds how deep tables are nested. -/
def table : Nat → Copy Unit
  | 0 => pure ()
  | depth + 1 => counted 2 (attributeEntry (contents depth))

/-- Copy the contents of an attribute as far as they are known. -/
def contents (depth : Nat) (name : String) : Copy Unit :=
  match depth with
  | 0 => pure ()
  | depth + 1 =>
      match name with
      | "Signature" => signature resolver
      | "Code" => do
          copy 4
          copy (← number 4)
          copy ((← number 2) * 8)
          table depth
      | "LocalVariableTable" => counted 2 (localVariable (descriptor resolver))
      | "LocalVariableTypeTable" => counted 2 (localVariable (signature resolver))
      | "RuntimeVisibleAnnotations" | "RuntimeInvisibleAnnotations" =>
          counted 2 (annotationEntry resolver depth)
      | "RuntimeVisibleParameterAnnotations" | "RuntimeInvisibleParameterAnnotations" =>
          counted 1 (counted 2 (annotationEntry resolver depth))
      | "RuntimeVisibleTypeAnnotations" | "RuntimeInvisibleTypeAnnotations" =>
          counted 2 (typeAnnotationEntry resolver depth)
      | "AnnotationDefault" => elementValue resolver depth
      | "EnclosingMethod" => enclosingMethod resolver
      | "InnerClasses" => counted 2 (innerClass resolver)
      | "Record" => counted 2 do
          recordComponent resolver owner
          table depth
      | _ => pure ()

end

end

/-- Rename the symbols in an attribute table of a class or of one of its members. -/
def rename (resolver : Resolver) (owner : String) (attributes : List UInt8) :
    WithPool (List UInt8) := fun pool =>
  let (result, s) :=
    table resolver owner (attributes.length + 1) { pool, cursor := ⟨attributes, 0⟩ }
  (result.map fun _ => s.copied.reverse, s.pool)

end JarRemap.Attributes
