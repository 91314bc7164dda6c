import JarRemap.ClassFile.Basic
import JarRemap.Renaming.Attributes

/-!
# Renaming all over a class

Which call sites name a lambda, and then all passes in their order.
-/

/-!
## Lambdas

Which bootstrap methods of a class create lambdas. The name of such a call site is the name of the
method that the lambda implements, whose descriptor is the first method type among the arguments.
-/

namespace JarRemap.Lambda

/-- The class whose methods create lambdas. -/
def factory : String := "java/lang/invoke/LambdaMetafactory"

/-- A bootstrap method: the handle to call and the arguments to call it with. -/
structure Bootstrap where
  handle : UInt16
  arguments : List UInt16
deriving DecidableEq, Repr

/-- Take a bootstrap method. -/
def bootstrap : Decoder Bootstrap := do
  let handle ← Decoder.short
  let count ← Decoder.short
  return ⟨handle, ← Decoder.times count.toNat Decoder.short⟩

def isFactory (constants : Constants) (handle : UInt16) : Bool :=
  match constants.at? handle with
  | some (.methodHandle _ reference) =>
      match constants.at? reference with
      | some (.methodRef owner _) => constants.className? owner = some factory
      | _ => false
  | _ => false

def methodType? (constants : Constants) (index : UInt16) : Option String :=
  match constants.at? index with
  | some (.methodType desc) => constants.utf8? desc
  | _ => none

/-- The descriptor of the method that the lambdas of a bootstrap method implement. -/
def Bootstrap.implemented? (constants : Constants) (b : Bootstrap) : Option String :=
  if isFactory constants b.handle then b.arguments.findSome? (methodType? constants) else none

/-- The descriptor of the implemented method for each bootstrap method of a class. -/
def implemented (c : ClassFile) : Except ClassFault (List (Option String)) :=
  match ClassFile.findAttribute? c.constants c.attributes "BootstrapMethods" with
  | none => .ok []
  | some body => do
      let methods : Decoder (List Bootstrap) := do
        Decoder.times (← Decoder.short).toNat bootstrap
      let (methods, _) ← methods ⟨body, 0⟩
      return methods.map (Bootstrap.implemented? c.constants)

end JarRemap.Lambda

/-!
## Renaming in classes

Renames classes, fields and methods all over a class file, in four passes over one growing pool:
references to members, attributes, classes, members. The first two look members up by the old names
of their owners, so they come before the classes are renamed. New texts are appended, never put in
place of old ones, because one text may serve several symbols or be a string of the program.
-/

namespace JarRemap

/-- Why the symbols of a class cannot be renamed. -/
inductive RenameFault where
  | classFile (f : ClassFault)
  /-- Two members of a class would get one name and descriptor. -/
  | conflict (kind owner name desc : String)
deriving DecidableEq, Repr

/-- The error in words. -/
def RenameFault.message : RenameFault → String
  | classFile f => f.message
  | conflict kind owner name desc =>
      "Conflicting " ++ kind ++ " " ++ name ++ desc ++ " in " ++ owner

namespace ClassRenaming

/-- A name and a descriptor under their new names. -/
structure NewPair where
  name : String
  desc : String
deriving DecidableEq, Repr

/-- The interface that a call site gives an instance of, told by its descriptor. -/
def interface? (desc : String) : Option String :=
  Descriptor.className? (String.ofList (Text.behindLast (· = ')') desc.toList))

section

variable (resolver : Resolver)

/-- A field as some class refers to it. -/
def renameField (owner name desc : String) : NewPair :=
  ⟨(resolver.newField? owner name (some desc)).getD name, resolver.newDescriptor desc⟩

/-- A method as some class refers to it. -/
def renameMethod (owner name desc : String) : NewPair :=
  ⟨(resolver.newMethod? owner name desc).getD name, resolver.newDescriptor desc⟩

/-- A call site, whose name follows the method that its lambda implements, if it is one. -/
def renameCallSite (implemented : Option String) (name desc : String) : NewPair :=
  let renamed := do
    let method ← implemented
    resolver.newMethod? (← interface? desc) name method
  ⟨renamed.getD name, resolver.newDescriptor desc⟩

/-- The index of a renamed pair, which is the old index if the pair stays. -/
def internRenamed (index : UInt16) (name desc : String) (r : NewPair) : WithPool UInt16 :=
  if r = ⟨name, desc⟩ then return index else Pool.internPair r.name r.desc

/-- A reference to a member of a class, under the member's new name. -/
def renameReference (rename : String → String → String → NewPair) (owner pair : UInt16) :
    WithPool UInt16 := do
  let constants := (← get).constants
  match constants.className? owner, constants.nameAndType? pair with
  | some owner, some (name, desc) => internRenamed pair name desc (rename owner name desc)
  | _, _ => return pair

/-- A call site or a computed constant, under its new name. -/
def renameDynamic (implemented : Option String) (pair : UInt16) : WithPool UInt16 := do
  match (← get).constants.nameAndType? pair with
  | some (name, desc) =>
      internRenamed pair name desc (renameCallSite resolver implemented name desc)
  | none => return pair

/-- The index of a renamed text, which is the old index if the text stays. -/
def renameText (index : UInt16) (rename : String → Option String) : WithPool UInt16 := do
  match (← get).constants.utf8? index with
  | none => return index
  | some text =>
      match rename text with
      | some renamed => if renamed = text then return index else Pool.internText renamed
      | none => return index

def renameMemberIn (lambdas : List (Option String)) : Constant → WithPool Constant
  | .fieldRef owner pair => do
      return .fieldRef owner (← renameReference (renameField resolver) owner pair)
  | .methodRef owner pair => do
      return .methodRef owner (← renameReference (renameMethod resolver) owner pair)
  | .interfaceMethodRef owner pair => do
      return .interfaceMethodRef owner (← renameReference (renameMethod resolver) owner pair)
  | .invokeDynamic bootstrap pair => do
      return .invokeDynamic bootstrap
        (← renameDynamic resolver (lambdas[bootstrap.toNat]?).join pair)
  | .dynamic bootstrap pair => do
      return .dynamic bootstrap (← renameDynamic resolver none pair)
  | .methodType desc => do
      return .methodType (← renameText desc fun desc => some (resolver.newDescriptor desc))
  | c => return c

def renameClassIn : Constant → WithPool Constant
  | .classRef name => do return .classRef (← renameText name resolver.newClass?)
  | c => return c

end

/-- Change the constants at so many indexes from one on. -/
def mapConstants (f : Constant → WithPool Constant) : Nat → Nat → WithPool Unit
  | 0, _ => pure ()
  | count + 1, index => do
      match (← get).constants[index]? with
      | some c => Pool.replace index (← f c)
      | none => pure ()
      mapConstants f count (index + 1)

/-- Computations that may append to a pool or find a conflict. -/
abbrev Renamer := ExceptT RenameFault (StateM Pool)

/-- Append to the pool. -/
def withPool {α : Type} (f : WithPool α) : Renamer α := ExceptT.adapt .classFile f

/-- Rename members in order. `seen` holds what the members before are called now. -/
def renameMembers (kind : String) (rename : String → String → NewPair) (owner : String)
    (ignoreConflicts : Bool) : List NewPair → List Member → Renamer (List Member)
  | _, [] => return []
  | seen, m :: rest => do
      match ClassFile.memberNames? (← get).constants m with
      | none => return m :: (← renameMembers kind rename owner ignoreConflicts seen rest)
      | some (name, desc) =>
          let r := rename name desc
          if seen.contains r && !ignoreConflicts then
            throw (.conflict kind owner r.name r.desc)
          else
            let name ← withPool (Pool.internText r.name)
            let desc ← withPool (Pool.internText r.desc)
            return { m with name, desc } ::
              (← renameMembers kind rename owner ignoreConflicts (r :: seen) rest)

def renameAttributesOf (resolver : Resolver) (owner : String) (m : Member) :
    WithPool Member := do
  return { m with attributes := ← Attributes.rename resolver owner m.attributes }

def renameAll (resolver : Resolver) (c : ClassFile) : Renamer ClassFile := do
  let owner := c.name
  let others := c.constants.size - 1
  let lambdas ← withPool (liftM (Lambda.implemented c))
  withPool (mapConstants (renameMemberIn resolver lambdas) others 1)
  let attributes ← withPool (Attributes.rename resolver owner c.attributes)
  let fields ← withPool (c.fields.mapM (renameAttributesOf resolver owner))
  let methods ← withPool (c.methods.mapM (renameAttributesOf resolver owner))
  withPool (mapConstants (renameClassIn resolver) others 1)
  let fields ← renameMembers "field" (renameField resolver owner) owner resolver.ignoreConflicts
    [] fields
  let methods ← renameMembers "method" (renameMethod resolver owner) owner resolver.ignoreConflicts
    [] methods
  return { c with attributes, fields, methods, constants := (← get).constants }

/-- Rename everything in a class file that was read. -/
def renamed (resolver : Resolver) (c : ClassFile) : Except RenameFault ClassFile :=
  ((renameAll resolver c).run (Pool.ofConstants c.constants)).1

/-- Rename everything in the bytes of a class file. -/
def renamedBytes (resolver : Resolver) (bytes : List UInt8) : Except RenameFault (List UInt8) := do
  let c ← (ClassFile.parse bytes).mapError .classFile
  return (← renamed resolver c).toBytes

end ClassRenaming

end JarRemap
