import JarRemap.Proofs.ClassFile.RoundTrip
import JarRemap.Renaming.Attributes

/-!
# The layout of attribute tables

What stands in an attribute table, as far as it is known: bytes that mean nothing to a renaming, the
indexes of attribute names, and the indexes of texts and pairs that symbols are made of. A table is
laid out in such pieces in one way, which does not depend on any resolver.
-/

namespace JarRemap.Attributes

/-- What the index of a text, or of a name with a descriptor, is used for. -/
inductive Use where
  | descriptor
  | signature
  /-- The name of a constant, by the descriptor of its enumeration. -/
  | enumConstant (type : UInt16)
  /-- The name of an element, by the descriptor of its annotation. -/
  | element (type : UInt16)
  /-- The simple name of a nested class. -/
  | simpleName (inner : UInt16)
  /-- The name of a component of a record, by its descriptor. -/
  | component (type : UInt16)
  /-- The method that a class is declared in, by the class that declares the method. -/
  | enclosing (declarer : UInt16)
deriving DecidableEq, Repr

/-- A piece of a table. -/
inductive Piece where
  | plain (bytes : List UInt8)
  /-- The index of the name of an attribute, which is of a kind. -/
  | name (index : UInt16) (kind : String)
  /-- The index of a name that is none in the class as it was read, so that the attribute is of a
  kind only if what was appended since gave it one. -/
  | noName (index : UInt16) (kind : String)
  /-- An index that is used. Attributes without a name hold nothing of the class as it was read. -/
  | mention (named : Bool) (use : Use) (index : UInt16)
deriving DecidableEq, Repr

/-- The bytes that a piece takes. -/
def Piece.bytes : Piece → List UInt8
  | plain bytes => bytes
  | name index _ | noName index _ | mention _ _ index => bytesOfNat 2 index.toNat

@[simp] theorem Piece.bytes_plain (bytes : List UInt8) : (plain bytes).bytes = bytes := rfl

@[simp] theorem Piece.bytes_name (index : UInt16) (kind : String) :
    (name index kind).bytes = bytesOfNat 2 index.toNat := rfl

@[simp] theorem Piece.bytes_noName (index : UInt16) (kind : String) :
    (noName index kind).bytes = bytesOfNat 2 index.toNat := rfl

@[simp] theorem Piece.bytes_mention (named : Bool) (use : Use) (index : UInt16) :
    (mention named use index).bytes = bytesOfNat 2 index.toNat := rfl

/-- What can stand in a table. -/
inductive Shape where
  | nothing
  | text (use : Use)
  | times (count : Nat) (item : Shape)
  /-- A number of so many bytes, and so many items. -/
  | counted (size : Nat) (item : Shape)
  | annotated
  | element (type : UInt16)
  | value
  | annotatedType
  | localVariable (use : Use)
  | enclosingMethod
  | innerClass
  | component
  | code
  /-- An attribute. -/
  | entry
deriving DecidableEq, Repr

/-- An attribute table. -/
def Shape.table : Shape := counted 2 entry

/-- What the attributes of a kind begin with. -/
def layout : String → Shape
  | "Signature" => .text .signature
  | "Code" => .code
  | "LocalVariableTable" => .counted 2 (.localVariable .descriptor)
  | "LocalVariableTypeTable" => .counted 2 (.localVariable .signature)
  | "RuntimeVisibleAnnotations" | "RuntimeInvisibleAnnotations" => .counted 2 .annotated
  | "RuntimeVisibleParameterAnnotations" | "RuntimeInvisibleParameterAnnotations" =>
      .counted 1 (.counted 2 .annotated)
  | "RuntimeVisibleTypeAnnotations" | "RuntimeInvisibleTypeAnnotations" =>
      .counted 2 .annotatedType
  | "AnnotationDefault" => .value
  | "EnclosingMethod" => .enclosingMethod
  | "InnerClasses" => .counted 2 .innerClass
  | "Record" => .counted 2 .component
  | _ => .nothing

/-- The place of an annotated type, by the number that tells what it is a type of. -/
inductive IsPlace : Nat → List Piece → Prop where
  | parameter {target place} (h : target = 0x00 ∨ target = 0x01 ∨ target = 0x16)
      (hplace : place.length = 1) : IsPlace target [.plain place]
  | index {target place}
      (h : (0x10 ≤ target ∧ target ≤ 0x12) ∨ target = 0x17 ∨ (0x42 ≤ target ∧ target ≤ 0x46))
      (hplace : place.length = 2) : IsPlace target [.plain place]
  | none {target} (h : 0x13 ≤ target ∧ target ≤ 0x15) : IsPlace target []
  | ranges {target count places} (h : target = 0x40 ∨ target = 0x41) (hcount : count.length = 2)
      (hplaces : places.length = natOfBytes count * 6) :
      IsPlace target [.plain count, .plain places]
  | argument {target place} (h : 0x47 ≤ target ∧ target ≤ 0x4B) (hplace : place.length = 3) :
      IsPlace target [.plain place]

/-- The tags of the values of elements that are numbers, truth values, characters or strings. -/
def constantTags : List Char := ['B', 'C', 'D', 'F', 'I', 'J', 'S', 'Z', 's']

/-- The bytes of pieces. -/
def bytesOf (pieces : List Piece) : List UInt8 := pieces.flatMap Piece.bytes

@[simp] theorem bytesOf_nil : bytesOf [] = [] := rfl

@[simp] theorem bytesOf_append (a b : List Piece) : bytesOf (a ++ b) = bytesOf a ++ bytesOf b :=
  List.flatMap_append

@[simp] theorem bytesOf_cons (piece : Piece) (rest : List Piece) :
    bytesOf (piece :: rest) = piece.bytes ++ bytesOf rest := rfl

/-- Pieces that stand for what can stand in a table; `named` says whether all attributes around them
have names. -/
inductive HasShape : Bool → Shape → List Piece → Prop where
  | nothing {named} : HasShape named .nothing []
  | text {named use index} : HasShape named (.text use) [.mention named use index]
  | none {named item} : HasShape named (.times 0 item) []
  | more {named item count first rest} (hfirst : HasShape named item first)
      (hrest : HasShape named (.times count item) rest) :
      HasShape named (.times (count + 1) item) (first ++ rest)
  | counted {named item size count items} (hsize : count.length = size)
      (hitems : HasShape named (.times (natOfBytes count) item) items) :
      HasShape named (.counted size item) (.plain count :: items)
  | annotated {named type elements}
      (helements : HasShape named (.counted 2 (.element type)) elements) :
      HasShape named .annotated (.mention named .descriptor type :: elements)
  | element {named type name value} (hvalue : HasShape named .value value) :
      HasShape named (.element type) (.mention named (.element type) name :: value)
  | constant {named tag index} (hsize : tag.length = 1)
      (htag : Char.ofNat (natOfBytes tag) ∈ constantTags) (hindex : index.length = 2) :
      HasShape named .value [.plain tag, .plain index]
  | enumeration {named tag type name} (hsize : tag.length = 1)
      (htag : Char.ofNat (natOfBytes tag) = 'e') :
      HasShape named .value
        [.plain tag, .mention named .descriptor type, .mention named (.enumConstant type) name]
  | type {named tag index} (hsize : tag.length = 1) (htag : Char.ofNat (natOfBytes tag) = 'c') :
      HasShape named .value [.plain tag, .mention named .descriptor index]
  | nested {named tag annotated} (hsize : tag.length = 1)
      (htag : Char.ofNat (natOfBytes tag) = '@')
      (hannotated : HasShape named .annotated annotated) :
      HasShape named .value (.plain tag :: annotated)
  | array {named tag values} (hsize : tag.length = 1) (htag : Char.ofNat (natOfBytes tag) = '[')
      (hvalues : HasShape named (.counted 2 .value) values) :
      HasShape named .value (.plain tag :: values)
  | annotatedType {named target place steps path annotated} (htarget : target.length = 1)
      (hplace : IsPlace (natOfBytes target) place) (hsteps : steps.length = 1)
      (hpath : path.length = natOfBytes steps * 2)
      (hannotated : HasShape named .annotated annotated) :
      HasShape named .annotatedType
        (.plain target :: (place ++ (.plain steps :: .plain path :: annotated)))
  | localVariable {named use scope index slot} (hscope : scope.length = 6)
      (hslot : slot.length = 2) :
      HasShape named (.localVariable use)
        [.plain scope, .mention named use index, .plain slot]
  | enclosingMethod {named} {declarer method : UInt16} :
      HasShape named .enclosingMethod
        [.plain (bytesOfNat 2 declarer.toNat), .mention named (.enclosing declarer) method]
  | innerClass {named} {inner outer simple flags : UInt16} :
      HasShape named .innerClass
        [.plain (bytesOfNat 2 inner.toNat), .plain (bytesOfNat 2 outer.toNat),
          .mention named (.simpleName inner) simple, .plain (bytesOfNat 2 flags.toNat)]
  | component {named name type attributes} (hattributes : HasShape named .table attributes) :
      HasShape named .component
        (.mention named (.component type) name :: .mention named .descriptor type :: attributes)
  /-- The limits of stack and locals, the bytecode, the exception table, and the attributes. -/
  | code {named limits length bytecode count handlers attributes} (hlimits : limits.length = 4)
      (hlength : length.length = 4) (hbytecode : bytecode.length = natOfBytes length)
      (hcount : count.length = 2) (hhandlers : handlers.length = natOfBytes count * 8)
      (hattributes : HasShape named .table attributes) :
      HasShape named .code (.plain limits :: .plain length :: .plain bytecode :: .plain count ::
        .plain handlers :: attributes)
  /-- A name, a length, and so many bytes: what is known of them, and the rest. -/
  | entry {named index kind length contents rest} (hsize : length.length = 4)
      (hcontents : HasShape named (layout kind) contents)
      (hlength : natOfBytes length = (bytesOf contents ++ rest).length) :
      HasShape named .entry
        (.name index kind :: .plain length :: (contents ++ [.plain rest]))
  | noName {named index kind length contents rest} (hsize : length.length = 4)
      (hcontents : HasShape false (layout kind) contents)
      (hlength : natOfBytes length = (bytesOf contents ++ rest).length) :
      HasShape named .entry
        (.noName index kind :: .plain length :: (contents ++ [.plain rest]))

/-! ### Tables of attributes -/

section Tables

variable {named : Bool} {pieces : List Piece}

end Tables

end JarRemap.Attributes
