import JarRemap.Proofs.ClassFile.Canonical
import JarRemap.Proofs.Renaming.Classes
import JarRemap.Proofs.Renaming.Tables

/-!
# What renaming leaves as it is

Renaming changes what constants stand for and which texts the tables mention, and nothing else:
constants that stand for no symbol stay at their indexes, texts and pairs alone are appended, and
everything in a table but the indexes of the texts and pairs it mentions is written as it was read.
-/

namespace JarRemap

open Attributes (Frame)

namespace Attributes

section Rewritten

variable {f : Frame} {cs : Constants} {table table' : List UInt8}

/-- Every piece is written in as many bytes as it was read from. -/
theorem Frame.Becomes.length {part : Copied} (h : f.Becomes cs part) :
    part.written.length = part.piece.bytes.length := by
  obtain ⟨piece, bytes⟩ := part
  cases piece
  case plain => exact congrArg List.length h
  case name => exact congrArg List.length h.1
  case noName => exact congrArg List.length h.1
  case mention =>
    obtain ⟨index', hwritten, -⟩ := h
    dsimp only at hwritten ⊢
    rw [hwritten, Piece.bytes_mention, length_bytesOfNat, length_bytesOfNat]

theorem Frame.Rewritten.length (h : f.Rewritten cs table table') :
    table'.length = table.length := by
  obtain ⟨parts, -, rfl, rfl, hbecomes⟩ := h
  rw [written, taken, List.length_flatMap, List.length_flatMap]
  exact congrArg List.sum (List.map_congr_left fun part hpart => (hbecomes part hpart).length)

theorem Frame.Rewritten.mono {cs' : Constants} (h : f.Rewritten cs table table')
    (hkeeps : cs.Keeps Constant.isShared cs') : f.Rewritten cs' table table' := by
  obtain ⟨parts, hshape, htable, htable', hbecomes⟩ := h
  exact ⟨parts, hshape, htable, htable', fun part hpart => (hbecomes part hpart).mono hkeeps⟩

end Rewritten

end Attributes

namespace ClassRenaming

variable {resolver : Resolver} {p p' : Pool}

/-! ### Constants -/

/-- A later pool, which shares what an earlier one shares and has only texts and pairs behind it. -/
structure Grows (p p' : Pool) : Prop where
  size : p.size ≤ p'.size
  keeps : p.constants.Keeps Constant.isShared p'.constants
  appended : ∀ (i : Nat) (c : Constant), p.size ≤ i → p'.constants[i]? = some c → c.isShared = true

theorem Grows.trans {a b c : Pool} (hab : Grows a b) (hbc : Grows b c) : Grows a c := by
  refine ⟨hab.size.trans hbc.size, hab.keeps.trans hbc.keeps, fun i constant hi hconstant => ?_⟩
  by_cases hsize : b.size ≤ i
  · exact hbc.appended i constant hsize hconstant
  · have hold : b.constants[i]? = some _ := Array.getElem?_eq_getElem (Nat.lt_of_not_le hsize)
    have hshared := hab.appended i _ hi hold
    cases (hbc.keeps i _ hold hshared).symm.trans hconstant
    exact hshared

/-- The attribute tables of a class and of its members. -/
def tables (c : ClassFile) : List (List UInt8) :=
  c.attributes :: (c.fields ++ c.methods).map Member.attributes

/-- A member whose table was rewritten. -/
structure TableRewritten (f : Frame) (cs : Constants) (m m' : Member) : Prop where
  same : m' = { m with attributes := m'.attributes }
  attributes : f.Rewritten cs m.attributes m'.attributes

theorem TableRewritten.mono {f : Frame} {cs cs' : Constants} {m m' : Member}
    (h : TableRewritten f cs m m') (hkeeps : cs.Keeps Constant.isShared cs') :
    TableRewritten f cs' m m' :=
  ⟨h.same, h.attributes.mono hkeeps⟩

section Members

variable {f : Frame} {members members' : List Member}

end Members

section Walk

variable {c c' : ClassFile} {lambdas : List (Option String)} {fields₁ methods₁ : List Member}
  {p₁ p₂ p₃ p₄ p₅ p₆ : Pool}

end Walk

/-! ### Classes -/

end ClassRenaming

end JarRemap
