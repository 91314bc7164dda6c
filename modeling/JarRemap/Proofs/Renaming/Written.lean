import JarRemap.Proofs.ClassFile.Lengths
import JarRemap.Proofs.Renaming.Classes

/-!
# What renaming writes

Renaming can make texts longer, and the length of a text is cut to two bytes when it is written. The
pool has a limit that is kept; a text has one that nothing keeps.
-/

namespace JarRemap.ClassRenaming

/-- The bytes that renaming writes are read as the class file that was written if and only if all its
texts are short. Those that were read are, so that only new ones can be too long. -/
theorem renamedBytes_read_back_iff {resolver : Resolver} {bytes out : List UInt8}
    (h : renamedBytes resolver bytes = .ok out) :
    ∃ c c', Rewriting resolver bytes out c c' ∧
      (∀ constant ∈ c.constants.toList, constant.Short) ∧
      (ClassFile.parse out = .ok c' ↔ ∀ constant ∈ c'.constants.toList, constant.Short) := by
  obtain ⟨c, c', hrewriting⟩ := renamedBytes_eq_ok.1 h
  obtain ⟨hwell, -⟩ := renamed_spec (ClassFile.framed_of_parse hrewriting.read) hrewriting.renamed
  refine ⟨c, c', hrewriting, ClassFile.short_of_parse hrewriting.read, ?_⟩
  rw [← hrewriting.written]
  exact ClassFile.parse_toBytes_iff hwell

theorem renamedBytes_read_back_iff_bareClass :
    renamedBytes (bareResolverTo "b") bareClass.toBytes = .ok (bareClassTo "b").toBytes ∧
      ClassFile.parse (bareClassTo "b").toBytes = .ok (bareClassTo "b") := by
  have hrewriting : Rewriting (bareResolverTo "b") bareClass.toBytes (bareClassTo "b").toBytes
      bareClass (bareClassTo "b") := rewriting_bareClassTo (by decide)
  have hbytes := renamedBytes_eq_ok.2 ⟨_, _, hrewriting⟩
  obtain ⟨c, c', hsame, -, hread⟩ := renamedBytes_read_back_iff hbytes
  obtain ⟨-, rfl⟩ := hrewriting.unique hsame
  refine ⟨hbytes, hread.2 ?_⟩
  rintro constant hconstant text rfl
  have htext : text = "a" ∨ text = "b" := by simpa [bareClassTo] using hconstant
  rcases htext with rfl | rfl
  · decide
  · decide

theorem length_encode_replicate (count : Nat) :
    (ModifiedUtf8.encode (List.replicate count 'x')).length = count := by
  induction count with
  | zero => rfl
  | succ count ih =>
    have hsplit : ModifiedUtf8.encode (List.replicate (count + 1) 'x') =
        ModifiedUtf8.encode ['x'] ++ ModifiedUtf8.encode (List.replicate count 'x') := by
      simp [ModifiedUtf8.encode, Text.units, List.replicate_succ]
    rw [hsplit, List.length_append, ih, Nat.add_comm]
    rfl

/-- A name of one byte more than two bytes can count. -/
def longName : String := String.ofList (List.replicate 65536 'x')

/-- A class that gets a long name is written, but not as bytes that are read as the class. -/
theorem renamedBytes_longName :
    renamedBytes (bareResolverTo longName) bareClass.toBytes = .ok (bareClassTo longName).toBytes ∧
      renamed (bareResolverTo longName) bareClass = .ok (bareClassTo longName) ∧
      ClassFile.parse (bareClassTo longName).toBytes ≠ .ok (bareClassTo longName) := by
  have hlist : longName.toList = List.replicate 65536 'x' := String.toList_ofList
  have hname : longName ≠ "a" := by
    intro h
    have hlength := congrArg List.length hlist
    rw [h, List.length_replicate] at hlength
    exact absurd hlength (by decide)
  have hrewriting := rewriting_bareClassTo hname
  refine ⟨renamedBytes_eq_ok.2 ⟨_, _, hrewriting⟩, hrewriting.renamed, ?_⟩
  intro hread
  have hshort := ClassFile.short_of_parse hread (.utf8 longName) (by simp [bareClassTo]) longName rfl
  rw [hlist, length_encode_replicate] at hshort
  omega

end JarRemap.ClassRenaming
