import JarRemap.Renaming.Attributes

/-!
# Renaming in attributes, in place

The same renaming in the bytes of a table where they stand: what holds no symbol is skipped, and the
index of a renamed symbol is overwritten. Indexes are read and written by their offsets, which only
the checks that are made on the way keep inside the table. Leaving the table and running out of the
bound on the nesting are therefore ends of their own. What is skipped, read and written is noted
with the ends of the attributes that it stands in.
-/

namespace JarRemap.Attributes.InPlace

/-- Bytes that were skipped, read or written, and where the attributes around them end, from the
inside out. -/
structure Access where
  start : Nat
  stop : Nat
  around : List Nat
deriving DecidableEq, Repr

/-- A table that is being patched. -/
structure State where
  pool : Pool
  bytes : List UInt8
  /-- How far the table was gone through. -/
  offset : Nat := 0
  /-- Where the attributes end that the offset stands in, from the inside out. -/
  around : List Nat := []
  /-- What was skipped, read and written, last access first. -/
  accesses : List Access := []

/-- Why patching ends early. -/
inductive Halt where
  | fault (fault : ClassFault)
  /-- Bytes outside the table are read or written. -/
  | outside
  /-- Tables or annotations are nested deeper than the bound. -/
  | tooDeep
deriving DecidableEq, Repr

/-- Computations that go through a part of a table. -/
abbrev Patch := ExceptT Halt (StateM State)

def State.note (s : State) (start stop : Nat) : State :=
  { s with accesses := ⟨start, stop, s.around⟩ :: s.accesses }

/-- Skip bytes, and give the offset they start at. -/
def skip (count : Nat) : Patch Nat := fun s =>
  let stop := s.offset + count
  if stop ≤ s.bytes.length then (.ok s.offset, { s with offset := stop }.note s.offset stop)
  else (.error (.fault (.truncatedAttribute s.offset)), s)

/-- The bytes at an offset. -/
def bytesAt (start count : Nat) : Patch (List UInt8) := fun s =>
  let stop := start + count
  if stop ≤ s.bytes.length then (.ok ((s.bytes.drop start).take count), s.note start stop)
  else (.error .outside, s)

/-- Overwrite bytes at an offset. -/
def overwrite (start : Nat) (new : List UInt8) : Patch Unit := fun s =>
  let stop := start + new.length
  if stop ≤ s.bytes.length then
    (.ok (), { s with bytes := s.bytes.take start ++ new ++ s.bytes.drop stop }.note start stop)
  else (.error .outside, s)

/-- Skip a number of so many bytes, and give it. -/
def number (bytes : Nat) : Patch Nat := do
  let start ← skip bytes
  return natOfBytes (← bytesAt start bytes)

def indexAt (start : Nat) : Patch UInt16 := do return (natOfBytes (← bytesAt start 2)).toUInt16

/-- The constants as they are now. -/
def constants : Patch Constants := do return (← get).pool.constants

/-- Append to the pool. -/
def withPool {α : Type} (f : WithPool α) : Patch α := fun s =>
  let (result, pool) := f s.pool
  (result.mapError .fault, { s with pool })

/-- Overwrite the index of a text that has a new text, and give the old text. -/
def renameAt (start : Nat) (rename : String → Option String) : Patch (Option String) := do
  let text := (← constants).utf8? (← indexAt start)
  match text.bind fun text => (rename text).filter (· ≠ text) with
  | none => pure ()
  | some renamed =>
      let index ← withPool (Pool.internText renamed)
      overwrite start (bytesOfNat 2 index.toNat)
  return text

def renamedText (rename : String → Option String) : Patch (Option String) := do
  let start ← skip 2
  renameAt start rename

/-- Do something a number of times. -/
def times : Nat → Patch Unit → Patch Unit
  | 0, _ => pure ()
  | n + 1, p => do
      p
      times n p

def counted (size : Nat) (item : Patch Unit) : Patch Unit := do times (← number size) item

/-- Go through the contents of an attribute with this end. -/
def within (stop : Nat) (contents : Patch Unit) : Patch Unit := do
  modify fun s => { s with around := stop :: s.around }
  contents
  modify fun s => { s with around := s.around.tail }

section

variable (resolver : Resolver) (owner : String)

def descriptor : Patch Unit := do
  let _ ← renamedText fun desc => some (resolver.newDescriptor desc)

/-- A signature stays if it is malformed. -/
def signature : Patch Unit := do
  let _ ← renamedText resolver.newSignature?

/-- A constant of an enumeration: its type and its name. -/
def enumConstant : Patch Unit := do
  let start ← skip 4
  let desc ← renameAt start fun desc => some (resolver.newDescriptor desc)
  match desc.bind fun desc => (Descriptor.className? desc).map (desc, ·) with
  | some (desc, declarer) =>
      let _ ← renameAt (start + 2) fun constant => resolver.newField? declarer constant (some desc)
  | none => pure ()

mutual

/-- An annotation: its type, and its elements, which are methods of the type. -/
def annotationEntry : Nat → Patch Unit
  | 0 => throw .tooDeep
  | depth + 1 => do
      let desc ← renamedText fun desc => some (resolver.newDescriptor desc)
      let type := desc.bind Descriptor.className?
      counted 2 do
        let _ ← renamedText fun element =>
          type.bind fun type => resolver.newMethodNamed? type element
        elementValue depth

def elementValue : Nat → Patch Unit
  | 0 => throw .tooDeep
  | depth + 1 => do
      let tag ← number 1
      match Char.ofNat tag with
      | 'B' | 'C' | 'D' | 'F' | 'I' | 'J' | 'S' | 'Z' | 's' => do let _ ← skip 2
      | 'e' => enumConstant resolver
      | 'c' => descriptor resolver
      | '@' => annotationEntry depth
      | '[' => counted 2 (elementValue depth)
      | _ => throw (.fault (.unknownElementTag tag))

end

/-- An annotation of a type: the place of the type, the path into it, and the annotation. -/
def typeAnnotationEntry (depth : Nat) : Patch Unit := do
  let target ← number 1
  if target = 0x00 ∨ target = 0x01 ∨ target = 0x16 then let _ ← skip 1
  else if (0x10 ≤ target ∧ target ≤ 0x12) ∨ target = 0x17 ∨ (0x42 ≤ target ∧ target ≤ 0x46) then
    let _ ← skip 2
  else if 0x13 ≤ target ∧ target ≤ 0x15 then pure ()
  else if target = 0x40 ∨ target = 0x41 then let _ ← skip ((← number 2) * 6)
  else if 0x47 ≤ target ∧ target ≤ 0x4B then let _ ← skip 3
  else throw (.fault (.unknownTarget target))
  let _ ← skip ((← number 1) * 2)
  annotationEntry resolver depth

/-- The method that a class is declared in, if there is one. -/
def enclosingMethod : Patch Unit := do
  let start ← skip 4
  let declarer ← indexAt start
  let method ← indexAt (start + 2)
  if method = 0 then pure ()
  else
    match (← constants).className? declarer, (← constants).nameAndType? method with
    | some declarer, some (name, desc) =>
        let renamed := (resolver.newMethod? declarer name desc).getD name
        let index ← withPool (Pool.internPair renamed (resolver.newDescriptor desc))
        overwrite (start + 2) (bytesOfNat 2 index.toNat)
    | _, _ => pure ()

/-- A nested class: itself, the class around it, its simple name and its flags. -/
def innerClass : Patch Unit := do
  let start ← skip 8
  if (← indexAt (start + 4)) = 0 then pure ()
  else
    let inner ← indexAt start
    match ((← constants).className? inner).bind resolver.newClass? with
    | some renamed => let _ ← renameAt (start + 4) fun _ => some (simpleName renamed)
    | none => pure ()

/-- The name and the descriptor of a component of a record. -/
def recordComponent : Patch Unit := do
  let start ← skip 4
  let type ← indexAt (start + 2)
  match (← constants).utf8? type with
  | some desc =>
      let _ ← renameAt start fun name => resolver.newField? owner name (some desc)
  | none => pure ()
  let _ ← renameAt (start + 2) fun desc => some (resolver.newDescriptor desc)

/-- A variable: where it is known, its name, its type and its place. -/
def localVariable (type : Patch Unit) : Patch Unit := do
  let _ ← skip 6
  type
  let _ ← skip 2

/-- An attribute: its name, its length, and its contents as far as they are known. -/
def attributeEntry (contents : String → Patch Unit) : Patch Unit := do
  let name := (← number 2).toUInt16
  let length ← number 4
  let stop := (← get).offset + length
  if (← get).bytes.length < stop then throw (.fault .truncatedTable)
  else
    let name := ((← constants).utf8? name).getD ""
    within stop (contents name)
    if stop < (← get).offset then throw (.fault (.overlongAttribute name))
    else modify fun s => { s with offset := stop }

mutual

/-- An attribute table. The number bounds how deep tables are nested. -/
def table : Nat → Patch Unit
  | 0 => throw .tooDeep
  | depth + 1 => counted 2 (attributeEntry (contents depth))

/-- The contents of an attribute as far as they are known. -/
def contents (depth : Nat) (name : String) : Patch Unit :=
  match depth with
  | 0 => throw .tooDeep
  | depth + 1 =>
      match name with
      | "Signature" => signature resolver
      | "Code" => do
          let _ ← skip 4
          let _ ← skip (← number 4)
          let _ ← skip ((← number 2) * 8)
          table depth
      | "LocalVariableTable" => counted 2 (localVariable (descriptor resolver))
      | "LocalVariableTypeTable" => counted 2 (localVariable (signature resolver))
      | "RuntimeVisibleAnnotations" | "RuntimeInvisibleAnnotations" =>
          counted 2 (annotationEntry resolver depth)
      | "RuntimeVisibleParameterAnnotations" | "RuntimeInvisibleParameterAnnotations" =>
          counted 1 (counted 2 (annotationEntry resolver depth))
      | "RuntimeVisibleTypeAnnotations" | "RuntimeInvisibleTypeAnnotations" =>
          counted 2 (typeAnnotationEntry resolver depth)
      | "AnnotationDefault" => elementValue resolver depth
      | "EnclosingMethod" => enclosingMethod resolver
      | "InnerClasses" => counted 2 (innerClass resolver)
      | "Record" => counted 2 do
          recordComponent resolver owner
          table depth
      | _ => pure ()

end

end

/-- Rename the symbols in an attribute table where it stands. The number of its bytes bounds how
deep anything in it is nested. -/
def rename (resolver : Resolver) (owner : String) (bytes : List UInt8) (pool : Pool) :
    Except Halt Unit × State :=
  table resolver owner (bytes.length + 1) { pool, bytes }

end JarRemap.Attributes.InPlace
