import JarRemap.Proofs.Renaming.Copying

/-!
# Tables are copied as they are laid out

Every function that copies a part of a table reads the shape it is for. Tables, annotations and the
values of their elements are nested, each deeper one in fewer bytes, so that the bound on how deep
they are nested is never reached.
-/

namespace JarRemap.Attributes

variable {f : Frame} {named : Bool} {bound : Nat}

section Whole

variable {p p' : Pool} {t t' : List UInt8}

end Whole

end JarRemap.Attributes
