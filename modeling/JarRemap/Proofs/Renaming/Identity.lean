import JarRemap.Proofs.ClassFile.Lengths
import JarRemap.Proofs.Descriptor.Compose
import JarRemap.Proofs.Renaming.Untouched
import JarRemap.Proofs.Signature.Pieces

/-!
# Renaming nothing

Some steps skip a symbol that keeps its name, others intern its name again. Where no text and no
pair occurs twice, interning finds the index that was there, so a class whose symbols are all left
alone comes back as it was, however full its pool is. Where one does, an index may be that of an
equal text.
-/

namespace JarRemap

open Attributes (Frame)

namespace Attributes

variable {f : Frame} {cs : Constants}

/-- Two indexes of the same text or pair, as far as the first one is resolved. -/
structure Frame.Stands (f : Frame) (cs : Constants) (use : Use) (index index' : UInt16) : Prop where
  text : ∀ text, f.renaming? use ≠ none → f.start.utf8? index = some text →
    cs.utf8? index' = some text
  pair : ∀ declarer owner pair, use = .enclosing declarer →
    f.start.className? declarer = some owner → f.start.nameAndType? index = some pair →
    cs.nameAndType? index' = some pair

/-- A piece that is written as it was, or with indexes of the same texts and pairs. -/
def Frame.Same (f : Frame) (cs : Constants) (part : Copied) : Prop :=
  match part.piece with
  | .mention named use index => ∃ index', part.written = bytesOfNat 2 index'.toNat ∧
      (named = true → f.Stands cs use index index')
  | piece => part.written = piece.bytes

theorem Frame.Renames.stands {use : Use} {index index' : UInt16}
    (h : f.Renames cs use index index') (hleaves : f.Leaves use index) :
    f.Stands cs use index index' := by
  refine ⟨fun text hknown htext => ?_, fun declarer owner pair huse howner hpair => ?_⟩
  · obtain ⟨rename, hrename⟩ := Option.ne_none_iff_exists'.1 hknown
    rw [h.text rename text hrename htext, hleaves.text rename text hrename htext]
  · obtain ⟨name, desc⟩ := pair
    obtain ⟨hname, hdesc⟩ := hleaves.pair declarer owner name desc huse howner hpair
    rw [h.pair declarer owner name desc huse howner hpair, hname, hdesc]

theorem Frame.Becomes.same {part : Copied} (h : f.Becomes cs part)
    (hleaves : f.LeavesPiece part.piece) : f.Same cs part := by
  obtain ⟨piece, bytes⟩ := part
  cases piece
  case plain => exact h
  case name => exact h.1
  case noName => exact h.1
  case mention named use index =>
    obtain ⟨index', hwritten, hrenames⟩ := h
    refine ⟨index', hwritten, ?_⟩
    rintro rfl
    exact hrenames.stands hleaves

end Attributes

namespace ClassRenaming

variable {resolver : Resolver} {p p' : Pool}

section Constants

variable {lambdas : List (Option String)}

end Constants

/-! ### Members -/

section Walk

variable {c c' : ClassFile} {lambdas : List (Option String)} {fields₁ methods₁ : List Member}
  {p₁ p₂ p₃ p₄ p₅ p₆ : Pool}

end Walk

/-! ### Classes -/

end ClassRenaming

end JarRemap
