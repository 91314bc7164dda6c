import JarRemap.Artifact
import Mathlib.Data.List.Induction
import Mathlib.Data.List.Nodup

/-!
# Artifacts that were read

An artifact holds the entries of its archive as they are, class entries with the names of their
classes. Which of its files are reference maps is told by its configurations, wherever they stand in
the archive, and each is known by the place where a configuration first names it.
-/

namespace JarRemap

variable {e : Entry} {entries : List Entry}

/-- Names that are first come earlier. -/
theorem pairwise_idxOf_addAllNew {α : Type} [DecidableEq α] (l : List α) :
    (addAllNew [] l).Pairwise fun a b => l.idxOf a < l.idxOf b := by
  induction l using List.reverseRecOn with
  | nil => exact List.Pairwise.nil
  | append_singleton l a ih =>
    have hmem : ∀ x ∈ addAllNew [] l, x ∈ l := by simp
    have hkeep : (addAllNew [] l).Pairwise fun x y => (l ++ [a]).idxOf x < (l ++ [a]).idxOf y := by
      apply ih.imp_of_mem
      intro x y hx hy hlt
      rwa [List.idxOf_append_of_mem (hmem x hx), List.idxOf_append_of_mem (hmem y hy)]
    have hsnoc : addAllNew [] (l ++ [a]) = addNew (addAllNew [] l) a := List.foldl_concat ..
    rw [hsnoc, addNew]
    split
    · exact hkeep
    · next hnew =>
      rw [List.pairwise_append]
      refine ⟨hkeep, List.pairwise_singleton _ a, ?_⟩
      intro x hx y hy
      rw [List.mem_singleton] at hy
      subst hy
      have ha : y ∉ l := by simpa using hnew
      rw [List.idxOf_append_of_mem (hmem x hx), List.idxOf_append_of_notMem ha]
      exact Nat.lt_of_lt_of_le (List.idxOf_lt_length_iff.2 (hmem x hx)) (Nat.le_add_right _ _)

/-- Whether an entry is a JSON file. -/
def Entry.isJson (e : Entry) : Bool := ".json".toList.isSuffixOf e.name.toList

/-- The last character tells what an entry is. -/
theorem getLast?_of_isSuffixOf {mark name : List Char} {c : Char} (hmark : mark.getLast? = some c)
    (h : mark.isSuffixOf name = true) : name.getLast? = some c := by
  obtain ⟨before, rfl⟩ := List.isSuffixOf_iff_suffix.1 h
  rw [List.getLast?_append, hmark, Option.some_or]

theorem Entry.isJson_of_isDirectory (h : e.isDirectory = true) : e.isJson = false := by
  cases hjson : e.isJson with
  | false => rfl
  | true =>
    rw [isDirectory, getLast?_of_isSuffixOf (c := 'n') rfl hjson] at h
    exact absurd h (by decide)

theorem Entry.isJson_of_isClassEntry (h : Hierarchy.isClassEntry e = true) : e.isJson = false := by
  cases hjson : e.isJson with
  | false => rfl
  | true =>
    rw [Hierarchy.isClassEntry, Bool.and_eq_true] at h
    have hlast := getLast?_of_isSuffixOf (c := 's') rfl h.2
    rw [getLast?_of_isSuffixOf (c := 'n') rfl hjson] at hlast
    exact absurd hlast (by decide)

namespace Refmaps

/-- The reference maps that the configurations of an archive name, in order. -/
def namedBy (entries : List Entry) : List String :=
  entries.flatMap fun e => if isConfig e.name then (namedBy? e.bytes).toList else []

theorem suffix_behindLast (p : Char → Bool) (s : List Char) : Text.behindLast p s <:+ s := by
  rw [Text.behindLast, ← List.reverse_prefix, List.reverse_reverse]
  exact List.takeWhile_prefix _

/-- A configuration is a JSON file. -/
theorem isJson_of_isConfig (h : isConfig e.name = true) : e.isJson = true := by
  have hbase : ".json".toList <:+ Text.behindLast (· = '/') e.name.toList := by
    rw [isConfig, Bool.or_eq_true, Bool.and_eq_true] at h
    rcases h with hmixins | ⟨-, hjson⟩
    · have hmark : ".json".toList <:+ ".mixins.json".toList := by decide
      exact hmark.trans (List.isSuffixOf_iff_suffix.1 hmixins)
    · exact List.isSuffixOf_iff_suffix.1 hjson
  exact List.isSuffixOf_iff_suffix.2 (hbase.trans (suffix_behindLast _ _))

/-- Nothing is known of reference maps that are not to be renamed. -/
theorem foldl_read_disabled (r : Refmaps) (entries : List Entry) (h : r.options.enabled = false) :
    entries.foldl (fun r e => r.read e.name e.bytes) r = r := by
  induction entries with
  | nil => rfl
  | cons e entries ih =>
    rw [List.foldl_cons, read, h]
    exact ih

/-- What is known after all files of an archive. -/
theorem foldl_read (r : Refmaps) (entries : List Entry) (h : r.options.enabled = true) :
    entries.foldl (fun r e => r.read e.name e.bytes) r =
      { r with
        named := addAllNew r.named (namedBy entries)
        files := r.files.insertAll
          ((entries.filter Entry.isJson).map fun e => (e.name, e.bytes)) } := by
  induction entries generalizing r with
  | nil => rfl
  | cons e entries ih =>
    have hread : r.read e.name e.bytes = if e.isJson then
        { r with
          named := addAllNew r.named (if isConfig e.name then (namedBy? e.bytes).toList else [])
          files := r.files.insert e.name e.bytes } else r := by
      rw [read, h, Bool.true_and]
      rfl
    rw [List.foldl_cons, hread, namedBy, List.flatMap_cons, ← namedBy]
    by_cases hjson : e.isJson = true
    · rw [if_pos hjson, ih, List.filter_cons_of_pos hjson]
      simp [addAllNew, OrderedMap.insertAll]
      exact h
    · have hconfig : isConfig e.name = false := by
        rw [← Bool.not_eq_true]
        exact fun h => hjson (isJson_of_isConfig h)
      rw [if_neg hjson, ih r h, List.filter_cons_of_neg hjson, hconfig]
      rfl

end Refmaps

namespace Artifact

section Except

variable {ε δ α β : Type} {x : Except ε α}

/-- A step that goes well goes on with what the step before gave. -/
theorem bind_eq_ok {f : α → Except ε β} {b : β} (h : x >>= f = .ok b) :
    ∃ a, x = .ok a ∧ f a = .ok b := by
  cases x with
  | error e => cases h
  | ok a => exact ⟨a, rfl, h⟩

theorem map_eq_ok {f : α → β} {b : β} (h : x.map f = .ok b) : ∃ a, x = .ok a ∧ f a = b := by
  cases x with
  | error e => cases h
  | ok a => exact ⟨a, rfl, Except.ok.inj h⟩

theorem mapError_eq_ok {f : ε → δ} {a : α} (h : x.mapError f = .ok a) : x = .ok a := by
  cases x with
  | error e => cases h
  | ok a' => exact congrArg Except.ok (Except.ok.inj h)

end Except

/-- The name of the class that an entry holds. -/
def className? (e : Entry) : Option String :=
  if Hierarchy.isClassEntry e then (ClassFile.parse e.bytes).toOption.map ClassFile.name else none

/-- How an entry is read. -/
def readAs (e : Entry) : ReadEntry := ⟨e, className? e⟩

/-- Whether an entry is a reference map, for all that stands in its archive. -/
def isRefmapOf (options : RefmapOptions) (entries : List Entry) (e : Entry) : Bool :=
  options.enabled && e.isJson && (Refmaps.namedBy entries).contains e.name

/-- What reading one entry does. -/
theorem readEntry_eq_ok {a b : Artifact} (h : a.readEntry e = .ok b) :
    b.entries = a.entries ++ [readAs e] ∧ b.refmaps = a.refmaps.read e.name e.bytes := by
  have hpass : e.isJson = false → a.refmaps.read e.name e.bytes = a.refmaps := by
    intro hjson
    rw [Refmaps.read, if_neg]
    rw [Bool.and_eq_true, not_and]
    intro _
    rw [Bool.not_eq_true]
    exact hjson
  rw [readEntry] at h
  split at h
  · next hclass =>
    split at h
    · cases h
    · next c hparse =>
      cases h
      rw [readAs, className?, if_pos hclass, hparse, hpass (Entry.isJson_of_isClassEntry hclass)]
      exact ⟨rfl, rfl⟩
  · next hclass =>
    have hread : readAs e = ⟨e, none⟩ := by rw [readAs, className?, if_neg hclass]
    rw [hread]
    split at h
    · next hdirectory =>
      cases h
      rw [hpass (Entry.isJson_of_isDirectory hdirectory)]
      exact ⟨rfl, rfl⟩
    · cases h
      exact ⟨rfl, rfl⟩

theorem foldlM_readEntry_eq_ok {a b : Artifact} (h : entries.foldlM readEntry a = .ok b) :
    b.entries = a.entries ++ entries.map readAs ∧
      b.refmaps = entries.foldl (fun r e => r.read e.name e.bytes) a.refmaps := by
  induction entries generalizing a with
  | nil =>
    cases h
    simp
  | cons e entries ih =>
    rw [List.foldlM_cons] at h
    obtain ⟨a', hread, h⟩ := bind_eq_ok h
    obtain ⟨hentries, hrefmaps⟩ := readEntry_eq_ok hread
    have hrest := ih h
    rw [hrest.1, hrest.2, hentries, hrefmaps]
    simp

variable {options : RefmapOptions} {classpath : Hierarchy} {a : Artifact}

/-- The entries of an archive are kept as they are. -/
theorem entries_of_read (h : read options classpath entries = .ok a) :
    a.entries = entries.map readAs :=
  (foldlM_readEntry_eq_ok h).1

/-- What is known of reference maps. -/
theorem refmaps_of_read (h : read options classpath entries = .ok a) :
    a.refmaps =
      if options.enabled then
        { options
          named := addAllNew [] (Refmaps.namedBy entries)
          files := .ofList ((entries.filter Entry.isJson).map fun e => (e.name, e.bytes)) }
      else { options } := by
  rw [(foldlM_readEntry_eq_ok h).2]
  split
  · next henabled => exact Refmaps.foldl_read { options } entries henabled
  · next hdisabled =>
    rw [Bool.not_eq_true] at hdisabled
    exact Refmaps.foldl_read_disabled { options } entries hdisabled

/-- Every file that is known is a JSON file of the archive. -/
theorem exists_entry_of_files (h : read options classpath entries = .ok a) {name : String}
    {bytes : List UInt8} (hbytes : a.refmaps.files.get? name = some bytes) :
    ∃ e ∈ entries, e.isJson = true ∧ e.name = name ∧ e.bytes = bytes := by
  rw [refmaps_of_read h] at hbytes
  split at hbytes
  · obtain ⟨e, he, hsame⟩ := List.mem_map.1 (OrderedMap.mem_of_get?_ofList hbytes)
    obtain ⟨hmem, hjson⟩ := List.mem_filter.1 he
    obtain ⟨hname, hbytes⟩ := Prod.mk.inj hsame
    exact ⟨e, hmem, hjson, hname, hbytes⟩
  · cases hbytes

/-- Names are known in the order in which configurations first give them. -/
theorem pairwise_named_of_read (h : read options classpath entries = .ok a) :
    a.refmaps.named.Pairwise fun name other =>
      (Refmaps.namedBy entries).idxOf name < (Refmaps.namedBy entries).idxOf other := by
  rw [refmaps_of_read h]
  split
  · exact pairwise_idxOf_addAllNew _
  · exact List.Pairwise.nil

/-- The reference maps of an artifact are those of its archive. -/
theorem isRefmap_of_read (h : read options classpath entries = .ok a) (he : e ∈ entries) :
    a.refmaps.isRefmap e.name = isRefmapOf options entries e := by
  rw [refmaps_of_read h, isRefmapOf]
  split
  · next henabled =>
    have hnamed : (addAllNew [] (Refmaps.namedBy entries)).contains e.name =
        (Refmaps.namedBy entries).contains e.name := by simp
    have hfiles : (OrderedMap.ofList
        ((entries.filter Entry.isJson).map fun e => (e.name, e.bytes))).contains e.name =
          e.isJson := by
      rw [Bool.eq_iff_iff, OrderedMap.contains_ofList_iff, List.map_map, List.mem_map]
      constructor
      · rintro ⟨other, hother, hname⟩
        have hjson := (List.mem_filter.1 hother).2
        have hsame : other.name = e.name := hname
        rwa [Entry.isJson, hsame] at hjson
      · intro hjson
        exact ⟨e, List.mem_filter.2 ⟨he, hjson⟩, rfl⟩
    rw [Refmaps.isRefmap, hnamed, hfiles, henabled, Bool.true_and, Bool.and_comm]
  · next hdisabled =>
    rw [Bool.not_eq_true] at hdisabled
    rw [hdisabled]
    rfl

end Artifact

end JarRemap
