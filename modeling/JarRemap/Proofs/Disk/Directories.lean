import JarRemap.Proofs.Disk.Places
import JarRemap.Run

/-!
# What is there already

A directory is made where there is nothing, and everything that is there already stays where it is.
An archive that can be opened can be opened again after that, as it can after files were written in
other places.
-/

namespace JarRemap.Disk

variable {d d' : Disk} {p q : Path} {P : Path → Prop} {place : Place} {entries : List Entry}

theorem archive_eq_ok (h : d.archive q = .ok entries) :
    ∃ c, d.node q = .ok (.file c) ∧ c.entries? = some entries := by
  unfold archive at h
  split at h
  · cases h
  · cases h
  · next c hnode =>
    split at h
    · cases h
    · next hentries =>
      cases h
      exact ⟨c, hnode, hentries⟩

theorem archive_of_node {c : Content} (hnode : d.node q = .ok (.file c))
    (hentries : c.entries? = some entries) : d.archive q = .ok entries := by
  rw [archive, hnode]
  dsimp only
  rw [hentries]

theorem archive_of_read (h : d.read q = .ok (.archive entries)) : d.archive q = .ok entries :=
  archive_of_node (read_eq_ok_iff.1 h) rfl

/-- An archive can be opened again after changes at other paths. -/
theorem ChangesOnly.archive_eq_ok (h : ChangesOnly P d d') (hapart : ∀ p, P p → d.Apart p q)
    (harchive : d.archive q = .ok entries) : d'.archive q = .ok entries := by
  obtain ⟨c, hnode, hentries⟩ := Disk.archive_eq_ok harchive
  exact archive_of_node (read_eq_ok_iff.1 (h.read_eq_ok hapart (read_eq_ok_iff.2 hnode))) hentries

/-- A disk on which everything is there that was on another one. -/
structure Keeps (d d' : Disk) : Prop where
  current : d'.current = d.current
  nodes : ∀ place n, d.node? place = some n → d'.node? place = some n

namespace Keeps

theorem refl (d : Disk) : d.Keeps d := ⟨rfl, fun _ _ h => h⟩

theorem trans {d'' : Disk} (h : d.Keeps d') (h' : d'.Keeps d'') : d.Keeps d'' :=
  ⟨h'.current.trans h.current, fun place n hnode => h'.nodes place n (h.nodes place n hnode)⟩

theorem directories (h : d.Keeps d') : d.KeepsDirectories d' :=
  ⟨h.current, fun place => h.nodes place .directory⟩

theorem node_eq_ok (h : d.Keeps d') {n : Node} (hnode : d.node p = .ok n) : d'.node p = .ok n := by
  obtain ⟨place, hplace, hn⟩ := node_eq_ok_iff.1 hnode
  exact node_eq_ok_iff.2 ⟨place, h.directories.place_eq_ok hplace, h.nodes place n hn⟩

theorem archive_eq_ok (h : d.Keeps d') (harchive : d.archive p = .ok entries) :
    d'.archive p = .ok entries := by
  obtain ⟨c, hnode, hentries⟩ := Disk.archive_eq_ok harchive
  exact archive_of_node (h.node_eq_ok hnode) hentries

/-- Something is put where there was nothing. -/
theorem put (hnothing : d.node? place = none) (n : Node) : d.Keeps (d.put place n) := by
  have hcurrent : place.isSuffixOf d.current = false :=
    isSuffixOf_current (by rw [hnothing]; exact nofun)
  refine ⟨rfl, fun other m hother => ?_⟩
  rw [node?_put d n other hcurrent, if_neg]
  · exact hother
  · rintro rfl
    rw [hnothing] at hother
    cases hother

theorem makeDirectory (h : d.makeDirectory p = .ok d') : d.Keeps d' := by
  obtain ⟨place, -, hmade⟩ := Artifact.bind_eq_ok h
  split at hmade
  · cases hmade
  · next hnothing =>
    cases hmade
    exact put hnothing .directory

theorem ensureDirectory (h : d.ensureDirectory p = .ok d') : d.Keeps d' := by
  unfold Disk.ensureDirectory at h
  split at h
  · next hmade =>
    cases h
    exact makeDirectory hmade
  · split at h
    · cases h
      exact refl d
    · cases h

/-- Directories are made one below the other, from the first that is not there. -/
theorem makeDirectoriesFrom {above : Nat} (h : d.makeDirectoriesFrom p above = .ok d') :
    d.Keeps d' := by
  induction above generalizing p d' with
  | zero =>
    cases h
    exact refl d
  | succ above ih =>
    unfold Disk.makeDirectoriesFrom at h
    split at h
    · obtain ⟨between, habove, hlast⟩ := Artifact.bind_eq_ok h
      exact (ih habove).trans (ensureDirectory hlast)
    · exact ensureDirectory h

theorem makeDirectories (h : d.makeDirectories p = .ok d') : d.Keeps d' := makeDirectoriesFrom h

end Keeps

end JarRemap.Disk
