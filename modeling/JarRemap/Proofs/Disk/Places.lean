import JarRemap.Disk
import JarRemap.Proofs.Artifact.Reading
import JarRemap.Proofs.Text.Split

/-!
# What a write leaves alone

Files are written and removed where their paths lead. Where a path leads depends on directories
only, so a write at one path changes no other one: what is there, and where it leads, stays as it
was.
-/

namespace JarRemap.Disk

variable {d d' : Disk} {p q : Path} {P Q : Path → Prop} {place : Place}

theorem node_eq_ok_iff {n : Node} :
    d.node p = .ok n ↔ ∃ place, d.place p = .ok place ∧ d.node? place = some n := by
  unfold node
  cases hplace : d.place p with
  | error e => simp [bind, Except.bind]
  | ok place =>
    cases hnode : d.node? place <;>
      simp [hnode, bind, Except.bind, pure, Except.pure, throw, throwThe, MonadExceptOf.throw]

theorem read_eq_ok_iff {c : Content} : d.read p = .ok c ↔ d.node p = .ok (.file c) := by
  unfold read
  cases d.node p with
  | error e => simp [bind, Except.bind]
  | ok n =>
    cases n <;> simp [bind, Except.bind, pure, Except.pure, throw, throwThe, MonadExceptOf.throw]

theorem holds_iff : d.holds p = true ↔ ∃ n, d.node p = .ok n := by
  unfold holds
  cases d.node p <;> simp [Except.toOption]

theorem isDirectory_iff : d.isDirectory p = true ↔ d.node p = .ok .directory := by
  unfold isDirectory
  cases d.node p with
  | error e => simp
  | ok n => cases n <;> simp

/-- A disk that has all directories of another one, on which paths lead where they led. -/
structure KeepsDirectories (d d' : Disk) : Prop where
  current : d'.current = d.current
  directories : ∀ place, d.node? place = some .directory → d'.node? place = some .directory

namespace KeepsDirectories

theorem follow_eq_ok (h : d.KeepsDirectories d') {part : String} {next : Place}
    (hfollow : d.follow place part = .ok next) : d'.follow place part = .ok next := by
  unfold follow at hfollow ⊢
  split at hfollow
  · cases hfollow
  · cases hfollow
  · next hdirectory =>
    rw [h.directories place hdirectory]
    exact hfollow

theorem foldlM_follow_eq_ok (h : d.KeepsDirectories d') {parts : List String} {next : Place}
    (hfollow : parts.foldlM d.follow place = .ok next) :
    parts.foldlM d'.follow place = .ok next := by
  induction parts generalizing place with
  | nil => exact hfollow
  | cons part parts ih =>
    rw [List.foldlM_cons] at hfollow ⊢
    obtain ⟨mid, hmid, hrest⟩ := Artifact.bind_eq_ok hfollow
    rw [h.follow_eq_ok hmid]
    exact ih hrest

theorem start_eq (h : d.KeepsDirectories d') (p : Path) : d'.start p = d.start p := by
  rw [Disk.start, Disk.start, h.current]

theorem place_eq_ok (h : d.KeepsDirectories d') (hplace : d.place p = .ok place) :
    d'.place p = .ok place := by
  unfold Disk.place at hplace ⊢
  obtain ⟨start, hstart, hrest⟩ := Artifact.bind_eq_ok hplace
  rw [h.start_eq, hstart]
  exact h.foldlM_follow_eq_ok hrest

end KeepsDirectories

/-- Disks with the same directories, on which paths lead to the same places. -/
structure SameDirectories (d d' : Disk) : Prop where
  current : d'.current = d.current
  directories : ∀ place, d'.node? place = some .directory ↔ d.node? place = some .directory

namespace SameDirectories

theorem refl (d : Disk) : d.SameDirectories d := ⟨rfl, fun _ => .rfl⟩

theorem trans {d'' : Disk} (h : d.SameDirectories d') (h' : d'.SameDirectories d'') :
    d.SameDirectories d'' :=
  ⟨h'.current.trans h.current, fun place => (h'.directories place).trans (h.directories place)⟩

theorem symm (h : d.SameDirectories d') : d'.SameDirectories d :=
  ⟨h.current.symm, fun place => (h.directories place).symm⟩

theorem keeps (h : d.SameDirectories d') : d.KeepsDirectories d' :=
  ⟨h.current, fun place => (h.directories place).2⟩

theorem place_eq_ok (h : d.SameDirectories d') (hplace : d.place p = .ok place) :
    d'.place p = .ok place :=
  h.keeps.place_eq_ok hplace

theorem place_iff (h : d.SameDirectories d') : d'.place p = .ok place ↔ d.place p = .ok place :=
  ⟨h.symm.place_eq_ok, h.place_eq_ok⟩

theorem isDirectory_eq (h : d.SameDirectories d') (p : Path) :
    d'.isDirectory p = d.isDirectory p := by
  rw [Bool.eq_iff_iff, isDirectory_iff, isDirectory_iff, node_eq_ok_iff, node_eq_ok_iff]
  exact exists_congr fun place => and_congr h.place_iff (h.directories place)

end SameDirectories

/-- A disk on which at most the files at some paths are others. -/
structure ChangesOnly (P : Path → Prop) (d d' : Disk) : Prop where
  same : d.SameDirectories d'
  elsewhere : ∀ place, (∀ p, P p → d.place p ≠ .ok place) → d'.node? place = d.node? place

/-- Two paths that do not lead to one place. -/
def Apart (d : Disk) (p q : Path) : Prop := ∀ place, d.place p = .ok place → d.place q ≠ .ok place

theorem SameDirectories.apart (h : d.SameDirectories d') (hapart : d.Apart p q) : d'.Apart p q :=
  fun place hp hq => hapart place (h.place_iff.1 hp) (h.place_iff.1 hq)

namespace ChangesOnly

theorem refl (P : Path → Prop) (d : Disk) : ChangesOnly P d d := ⟨.refl d, fun _ _ => rfl⟩

theorem trans {d'' : Disk} (h : ChangesOnly P d d') (h' : ChangesOnly P d' d'') :
    ChangesOnly P d d'' := by
  refine ⟨h.same.trans h'.same, fun place hplace => ?_⟩
  rw [h'.elsewhere place (fun p hp hsame => hplace p hp (h.same.place_iff.1 hsame)),
    h.elsewhere place hplace]

theorem mono (h : ChangesOnly P d d') (hPQ : ∀ p, P p → Q p) : ChangesOnly Q d d' :=
  ⟨h.same, fun place hplace => h.elsewhere place fun p hp => hplace p (hPQ p hp)⟩

/-- What can be read at a path can be read there after changes at other paths. -/
theorem read_eq_ok (h : ChangesOnly P d d') (hapart : ∀ p, P p → d.Apart p q) {c : Content}
    (hread : d.read q = .ok c) : d'.read q = .ok c := by
  rw [read_eq_ok_iff, node_eq_ok_iff] at hread ⊢
  obtain ⟨place, hplace, hnode⟩ := hread
  refine ⟨place, h.same.place_iff.2 hplace, ?_⟩
  rw [h.elsewhere place (fun p hp hsame => hapart p hp place hsame hplace), hnode]

/-- Where a file is put in the place of a file or of nothing, or is taken away. -/
theorem of_node? (hplace : d.place p = .ok place) (hfile : d.node? place ≠ some .directory)
    (hcurrent : d'.current = d.current) {n : Option Node} (hn : n ≠ some .directory)
    (hnode : ∀ other, d'.node? other = if other = place then n else d.node? other) :
    ChangesOnly (· = p) d d' := by
  refine ⟨⟨hcurrent, fun other => ?_⟩, fun other hother => ?_⟩
  · rw [hnode]
    split
    · next hsame =>
      subst hsame
      exact iff_of_false hn hfile
    · exact .rfl
  · rw [hnode, if_neg]
    rintro rfl
    exact hother p rfl hplace

end ChangesOnly

/-- A path that does not end in a slash has no empty parts at its end. -/
theorem trimmedParts_eq (hne : p.text.toList ≠ []) (h : ¬ p.endsInSlash = true) :
    trimmedParts p = p.parts := by
  rw [Path.endsInSlash, decide_eq_true_iff] at h
  have hlast : p.parts.getLast? ≠ some "" := by
    rw [Path.parts, List.getLast?_map]
    intro hempty
    obtain ⟨part, hpart, hof⟩ := Option.map_eq_some_iff.1 hempty
    rw [String.ofList_eq_empty_iff.1 hof] at hpart
    exact Text.getLast?_splitOn_ne hne h hpart
  rw [trimmedParts]
  rw [List.getLast?_eq_head?_reverse] at hlast
  rcases hparts : p.parts.reverse with _ | ⟨part, parts⟩
  · rw [List.reverse_eq_nil_iff.1 hparts]
    rfl
  · rw [hparts] at hlast
    have hpart : part ≠ "" := fun hpart => hlast (congrArg some hpart)
    rw [List.dropWhile_cons_of_neg (by simpa using hpart), ← hparts, List.reverse_reverse]

theorem target_eq_ok_iff :
    d.target p = .ok place ↔ ¬ p.endsInSlash = true ∧ d.trimmedPlace p = .ok place ∧
      d.node? place ≠ some .directory := by
  unfold target
  constructor
  · intro h
    obtain ⟨found, hfound, hlast⟩ := Artifact.bind_eq_ok h
    split at hlast
    · cases hlast
    · next hslash =>
      split at hlast
      · cases hlast
      · next hfile =>
        cases hlast
        exact ⟨hslash, hfound, hfile⟩
  · rintro ⟨hslash, htrimmed, hfile⟩
    simp only [htrimmed, bind, Except.bind, if_neg hslash]
    rfl

/-- A file is written where its path leads. -/
theorem place_of_target (h : d.target p = .ok place) :
    d.place p = .ok place ∧ d.node? place ≠ some .directory := by
  obtain ⟨hslash, htrimmed, hfile⟩ := target_eq_ok_iff.1 h
  refine ⟨?_, hfile⟩
  unfold trimmedPlace at htrimmed
  obtain ⟨start, hstart, hfollow⟩ := Artifact.bind_eq_ok htrimmed
  have hne : p.text.toList ≠ [] := by
    intro hnil
    unfold Disk.start at hstart
    rw [if_pos (String.toList_eq_nil_iff.1 hnil)] at hstart
    cases hstart
  rw [Disk.place, hstart]
  rwa [trimmedParts_eq hne hslash] at hfollow

theorem isSuffixOf_current (h : d.node? place ≠ some .directory) :
    place.isSuffixOf d.current = false := by
  unfold node? at h
  split at h
  · exact absurd rfl h
  · next hsuffix => exact Bool.eq_false_iff.2 hsuffix

/-- A write changes only the file at its path. -/
theorem write_eq_ok {c : Content} (h : d.write p c = .ok d') :
    ChangesOnly (· = p) d d' ∧ d'.read p = .ok c := by
  unfold write at h
  obtain ⟨place, htarget, hput⟩ := Artifact.bind_eq_ok h
  cases hput
  obtain ⟨hplace, hfile⟩ := place_of_target htarget
  have hnode := d.node?_put (.file c) (h := isSuffixOf_current hfile)
  have hchanges : ChangesOnly (· = p) d (d.put place (.file c)) :=
    .of_node? hplace hfile rfl (fun hdirectory => by cases hdirectory) hnode
  refine ⟨hchanges, ?_⟩
  rw [read_eq_ok_iff, node_eq_ok_iff]
  exact ⟨place, hchanges.same.place_iff.2 hplace, by rw [hnode, if_pos rfl]⟩

/-- A file is removed and everything else is as it was. -/
theorem remove_eq_ok (h : d.remove p = .ok d') :
    ChangesOnly (· = p) d d' ∧ d'.holds p = false := by
  unfold remove at h
  obtain ⟨place, hplace, hremove⟩ := Artifact.bind_eq_ok h
  cases hfile : d.node? place with
  | none =>
    rw [hfile] at hremove
    cases hremove
  | some n =>
    rw [hfile] at hremove
    cases n with
    | directory => cases hremove
    | file c =>
      cases hremove
      have hdirectory : d.node? place ≠ some .directory := by rw [hfile]; exact nofun
      have hnode : ∀ other, Disk.node? { d with nodes := d.nodes.erase place } other =
          if other = place then none else d.node? other := by
        intro other
        unfold node?
        rw [OrderedMap.get?_erase]
        by_cases hother : other = place
        · subst hother
          simp [isSuffixOf_current hdirectory]
        · simp [hother]
      have hchanges : ChangesOnly (· = p) d { d with nodes := d.nodes.erase place } :=
        .of_node? hplace hdirectory rfl (n := none) (fun hnone => by cases hnone) hnode
      refine ⟨hchanges, ?_⟩
      rw [← Bool.not_eq_true, holds_iff]
      rintro ⟨n, hn⟩
      obtain ⟨other, hother, hfound⟩ := node_eq_ok_iff.1 hn
      rw [hchanges.same.place_iff, hplace] at hother
      cases hother
      rw [hnode, if_pos rfl] at hfound
      cases hfound

/-- What is no directory can be removed, if it is there at all. -/
theorem exists_remove (h : d.holds p = true) (hfile : d.isDirectory p = false) :
    ∃ d', d.remove p = .ok d' := by
  obtain ⟨n, hn⟩ := holds_iff.1 h
  cases n with
  | directory =>
    rw [isDirectory_iff.2 hn] at hfile
    cases hfile
  | file c =>
    obtain ⟨place, hplace, hnode⟩ := node_eq_ok_iff.1 hn
    refine ⟨{ d with nodes := d.nodes.erase place }, ?_⟩
    unfold remove
    simp only [hplace, hnode, bind, Except.bind, pure, Except.pure]

theorem clear_eq_ok (h : d.clear p = .ok d') :
    ChangesOnly (· = p) d d' ∧ d'.holds p = false := by
  unfold clear at h
  split at h
  · exact remove_eq_ok h
  · next hnone =>
    cases h
    exact ⟨.refl _ d, by simpa using hnone⟩

/-- What is no directory can be cleared away. -/
theorem exists_clear (h : d.isDirectory p = false) : ∃ d', d.clear p = .ok d' := by
  unfold clear
  split
  · next hholds => exact exists_remove hholds h
  · exact ⟨d, rfl⟩

theorem changesOnly_discard (d : Disk) (p : Path) : ChangesOnly (· = p) d (d.discard p) := by
  unfold discard
  cases hremove : d.remove p with
  | error e => exact .refl _ d
  | ok d' => exact (remove_eq_ok hremove).1

/-- What is no directory is not there any more. -/
theorem holds_discard (h : d.isDirectory p = false) : (d.discard p).holds p = false := by
  unfold discard
  cases hremove : d.remove p with
  | ok d' => exact (remove_eq_ok hremove).2
  | error e =>
    change d.holds p = false
    by_contra hholds
    obtain ⟨d', hd'⟩ := exists_remove (Bool.of_not_eq_false hholds) h
    rw [hremove] at hd'
    cases hd'

end JarRemap.Disk
