import JarRemap.Format.Bytewise.Reader
import JarRemap.Format.Proguard

/-!
# Obfuscation logs by offsets

A line is cut at the arrow, and a member at its first blank, at the first bracket that opens and at
the first one that closes, which has to stand behind the other.
-/

namespace JarRemap.Format.Bytewise.Proguard

open Checked (fail need)
open JarRemap.Format.Proguard (dropLineNumbers)

variable {ε : Type}

/-- A text without its last two bytes, unless these are no characters of it. -/
def dropTwo? (s : List Char) : Option (List Char) :=
  if Text.byteLength s < 2 then none
  else (Text.splitAt? (Text.byteLength s - 2) s).map Prod.fst

theorem byteLength_lt_of_dropTwo? {s shorter : List Char} (h : dropTwo? s = some shorter) :
    Text.byteLength shorter < Text.byteLength s := by
  by_cases htwo : Text.byteLength s < 2
  · rw [dropTwo?, if_pos htwo] at h
    cases h
  · rw [dropTwo?, if_neg htwo] at h
    obtain ⟨parts, hparts, rfl⟩ := Option.map_eq_some_iff.1 h
    rw [Text.byteLength_of_splitAt? hparts]
    omega

/-- The type of the elements of an array, whose type ends in a pair of brackets for each dimension,
and the number of dimensions. -/
def elementType? (base : List Char) : Option (List Char × Nat) :=
  if "[]".toList.isSuffixOf base then
    match h : dropTwo? base with
    | none => none
    | some shorter => (elementType? shorter).map fun type => (type.1, type.2 + 1)
  else some (base, 0)
termination_by Text.byteLength base
decreasing_by exact byteLength_lt_of_dropTwo? h

theorem elementType?_of_dropTwo? {base shorter : List Char}
    (hsuffix : "[]".toList.isSuffixOf base = true) (h : dropTwo? base = some shorter) :
    elementType? base = (elementType? shorter).map fun type => (type.1, type.2 + 1) := by
  rw [elementType?, if_pos hsuffix]
  split
  · rename_i hnone
    rw [h] at hnone
    cases hnone
  · rename_i other hother
    rw [Option.some.inj (h.symm.trans hother)]

/-- The descriptor of a type. -/
def typeDescriptor (s : List Char) : Checked ε (List Char) := do
  let (element, dimensions) ← need .cut (elementType? (Text.trim s))
  return List.replicate dimensions '[' ++ JavaType.baseDescriptor element

/-- The descriptor of a method with a list of argument types between commas and a return type. -/
def methodDescriptor (arguments returned : List Char) : Checked ε (List Char) := do
  let types := ((Text.splitOn ',' arguments).map Text.trim).filter fun s => !s.isEmpty
  let descriptors ← types.mapM typeDescriptor
  return '(' :: descriptors.flatten ++ ')' :: (← typeDescriptor returned)

/-- Read a member of a class, written as a Java type and a name with or without arguments. -/
def memberLine (owner : String) (member obfuscated : List Char) : Checked Fault (List Record) := do
  let member := dropLineNumbers member
  match Text.find? (· = ' ') member with
  | none => fail (.expected "a type and a name")
  | some blank =>
      let javaType ← Text.upTo member blank
      let name := Text.trim (← Text.behind member (blank + 1))
      match Text.find? (· = '(') name with
      | none =>
          return [fieldRecord owner (some (← typeDescriptor javaType)) [name, obfuscated]]
      | some opening =>
          match (Text.find? (· = ')') name).filter (opening < ·) with
          | none => fail .unclosedArguments
          | some closing =>
              let method ← Text.upTo name opening
              if method.contains '.' || method.head? = some '<' then return []
              else
                let arguments ← Text.between name (opening + 1) closing
                let desc ← methodDescriptor arguments javaType
                return [methodRecord owner (some desc) [method, obfuscated]]

/-- Read one line, inside of a class or of none. -/
def step : Step (Option String) := fun owner line => do
  if isRemark line then return (owner, [])
  else
    match Text.findMark? " -> ".toList line with
    | none => fail .missingArrow
    | some arrow =>
        let old := Text.trim (← Text.upTo line arrow)
        let obfuscated := Text.trim (← Text.behind line (arrow + 4))
        if (line.head?.map Text.isBlank).getD false then
          match owner with
          | none => fail (.outside "Member" "class")
          | some name => return (owner, ← memberLine name old obfuscated)
        else
          match Text.stripEnd? [':'] obfuscated with
          | none => fail .missingColon
          | some obfuscated =>
              let old := Text.replace '.' '/' old
              return (some (String.ofList old),
                [typeRecord [old, Text.replace '.' '/' obfuscated]])

/-- Read an obfuscation log. -/
def parse (text : List Char) : Checked LineFault Source := do
  let records ← readLines step none (Text.numberedLines text)
  return (Source.start Namespace.mojmap [Namespace.official]).pushAll records

end JarRemap.Format.Bytewise.Proguard
