import JarRemap.Text.Blank
import JarRemap.Text.Cut

/-!
# Java types

Types as Java source writes them, and their descriptors: `java.lang.String[]` is
`[Ljava/lang/String;`.
-/

namespace JarRemap.JavaType

/-- The descriptor of a type without brackets. -/
def baseDescriptor (name : List Char) : List Char :=
  match String.ofList name with
  | "byte" => ['B']
  | "char" => ['C']
  | "double" => ['D']
  | "float" => ['F']
  | "int" => ['I']
  | "long" => ['J']
  | "short" => ['S']
  | "boolean" => ['Z']
  | "void" => ['V']
  | _ => 'L' :: Text.replace '.' '/' name ++ [';']

/-- The descriptor of a reversed type: a bracket for each pair of brackets at the end of the type,
then the descriptor of what stands before them. -/
def reversedDescriptor : List Char → List Char
  | ']' :: '[' :: rest => '[' :: reversedDescriptor rest
  | s => baseDescriptor s.reverse

/-- The descriptor of a type. -/
def descriptorOf (s : List Char) : List Char := reversedDescriptor (Text.trim s).reverse

def descriptor (javaType : String) : String := String.ofList (descriptorOf javaType.toList)

/-- The descriptor of a method with a list of argument types between commas and a return type.
Empty arguments are left out. -/
def methodDescriptorOf (arguments returned : List Char) : List Char :=
  let types := ((Text.splitOn ',' arguments).map Text.trim).filter fun s => !s.isEmpty
  '(' :: types.flatMap descriptorOf ++ ')' :: descriptorOf returned

/-- The descriptor of a method with a list of argument types between commas and a return type. -/
def methodDescriptor (arguments returned : String) : String :=
  String.ofList (methodDescriptorOf arguments.toList returned.toList)

end JarRemap.JavaType
