import JarRemap.Archive
import JarRemap.OrderedMap
import JarRemap.Reach
import JarRemap.ClassFile.Codec
import JarRemap.Dictionary

/-!
# Hierarchies and symbols

What classes inherit from, and how symbols are found through it.
-/

/-!
## Class hierarchies

The direct super class and interfaces of each known class, by which inherited members are found. A
hierarchy may be incomplete and even cyclic.
-/

namespace JarRemap

/-- The super class and then the interfaces of each known class. -/
structure Hierarchy where
  parentsOf : OrderedMap String (List String) := {}

namespace Hierarchy

/-- The parents of a class; a class that is not known has none. -/
def parents (h : Hierarchy) (name : String) : List String := (h.parentsOf.get? name).getD []

/-- Record the parents of a class. -/
def insert (h : Hierarchy) (name : String) (parents : List String) : Hierarchy :=
  ⟨h.parentsOf.insert name parents⟩

/-- Record a class. -/
def insertClass (h : Hierarchy) (c : ClassFile) : Hierarchy :=
  h.insert c.name (c.superName?.toList ++ c.interfaceNames)

/-- How many parents all classes have together; no search can meet more. -/
def parentCount (h : Hierarchy) : Nat := h.parentsOf.values.flatten.length

/-- A class and all its ancestors, nearest first. -/
def ancestors (h : Hierarchy) (name : String) : List String :=
  Reach.nodes h.parents h.parentCount name

/-- Whether an entry of an archive holds a class. -/
def isClassEntry (e : Entry) : Bool :=
  !e.isDirectory && ".class".toList.isSuffixOf e.name.toList

/-- The classes among the entries of an archive, as far as they can be read. -/
def readable (entries : List Entry) : List ClassFile :=
  (entries.filter isClassEntry).filterMap fun e => (ClassFile.parse e.bytes).toOption

/-- Record every class of an archive that can be read. -/
def insertEntries (h : Hierarchy) (entries : List Entry) : Hierarchy :=
  (readable entries).foldl insertClass h

end Hierarchy

end JarRemap

/-!
## Resolving symbols

What has to be known to name symbols anew in one hop: the dictionary, and the hierarchy through
which a member is found that a class inherits. The nearest ancestor that declares the member gives
its name.
-/

namespace JarRemap

/-- The dictionary and the classes of one hop. -/
structure Resolver where
  dictionary : Dictionary
  hierarchy : Hierarchy := {}
  /-- Whether two members of a class may get the same name and descriptor. -/
  ignoreConflicts : Bool := true

namespace Resolver

def newDescriptor (r : Resolver) (desc : String) : String := r.dictionary.newDescriptor desc

/-- A signature under new names; `none` if it is malformed. -/
def newSignature? (r : Resolver) (signature : String) : Option String :=
  r.dictionary.newSignature? signature

/-- The new name of a class, or the new descriptor of an array, if it is another one. -/
def newClass? (r : Resolver) (name : String) : Option String :=
  let renamed :=
    if name.toList.head? = some '[' then some (r.newDescriptor name)
    else r.dictionary.newClass? name
  renamed.filter (· ≠ name)

/-- The new name of a field that a class declares or inherits. -/
def newField? (r : Resolver) (owner name : String) (desc : Option String) : Option String :=
  (r.hierarchy.ancestors owner).findSome? fun declarer => r.dictionary.newField? declarer name desc

/-- The new name of a method that a class declares or inherits. An ancestor that declares it with
exactly this descriptor comes before any that declares it without one. Initialisers keep their
names. -/
def newMethod? (r : Resolver) (owner name desc : String) : Option String :=
  if name.toList.head? = some '<' then none
  else
    let declarers := r.hierarchy.ancestors owner
    (declarers.findSome? fun declarer => r.dictionary.newExactMethod? declarer name desc) <|>
      declarers.findSome? fun declarer => r.dictionary.newMethod? declarer name desc

/-- The new name of a method that a class declares or inherits, by its name alone. -/
def newMethodNamed? (r : Resolver) (owner name : String) : Option String :=
  (r.hierarchy.ancestors owner).findSome? fun declarer => r.dictionary.newMethodNamed? declarer name

end Resolver

end JarRemap
