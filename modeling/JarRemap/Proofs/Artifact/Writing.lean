import JarRemap.Proofs.Artifact.Reading
import JarRemap.Proofs.Renaming.Classes
import JarRemap.Proofs.Workers.AnyOrder
import Mathlib.Data.List.Forall2

/-!
# Archives of artifacts

What is written for each entry, and under which name.
-/

/-!
## Artifacts that are written

Every entry of an archive is written once. Reference maps are passed over among the other entries,
which keep their order, and follow behind them in the order in which configurations named them.
-/

namespace JarRemap.Artifact

open List (Forall₂)

/-- What becomes of an entry that is no reference map. -/
inductive Remaps (names : Resolver) (rules : List ResourceRule) (e : Entry) : Entry → Prop
  | directory (hdirectory : e.isDirectory = true) : Remaps names rules e ⟨e.name, []⟩
  | ofClass {bytes : List UInt8} (hclass : Hierarchy.isClassEntry e = true)
      (hbytes : ClassRenaming.renamedBytes names e.bytes = .ok bytes) :
      Remaps names rules e ⟨newEntryName names (readAs e), bytes⟩
  | resource {rule : ResourceRule} {bytes : List UInt8} (hdirectory : e.isDirectory = false)
      (hclass : Hierarchy.isClassEntry e = false)
      (hrule : rules.find? (fun r => r.accepts e.name) = some rule)
      (hbytes : rule.transform e.name e.bytes names.dictionary = .ok bytes) :
      Remaps names rules e ⟨e.name, bytes⟩
  | other (hdirectory : e.isDirectory = false) (hclass : Hierarchy.isClassEntry e = false)
      (hrule : rules.find? (fun r => r.accepts e.name) = none) : Remaps names rules e e

/-- What becomes of a reference map. -/
def RemapsRefmap (r : Refmaps) (names : Resolver) (e new : Entry) : Prop :=
  ∃ j, Json.ofBytes? e.bytes = some j ∧ new = ⟨e.name, (r.renameRefmap names j).toBytes⟩

variable {options : RefmapOptions} {classpath : Hierarchy} {names : Resolver}
  {rules : List ResourceRule} {workers : Nat} {entries : List Entry} {a : Artifact}
  {renamed : List (Nat × List UInt8)}

/-- The items of work are the class entries with their indices. -/
theorem mem_classes {item : ClassItem} : item ∈ a.classes ↔
    ∃ r, a.entries[item.index]? = some r ∧ r.entry = item.entry ∧
      Hierarchy.isClassEntry item.entry = true := by
  rw [classes, List.mem_map]
  constructor
  · rintro ⟨⟨r, index⟩, hr, rfl⟩
    obtain ⟨hr, hclass⟩ := List.mem_filter.1 hr
    exact ⟨r, List.mem_zipIdx_iff_getElem?.1 hr, rfl, hclass⟩
  · rintro ⟨r, hr, hentry, hclass⟩
    refine ⟨(r, item.index), ?_, by rw [hentry]⟩
    rw [List.mem_filter, List.mem_zipIdx_iff_getElem?]
    exact ⟨hr, by rwa [hentry]⟩

/-- The classes of an archive are its class entries. -/
theorem mem_classes_iff (hentries : a.entries = entries.map readAs) {item : ClassItem} :
    item ∈ a.classes ↔
      entries[item.index]? = some item.entry ∧ Hierarchy.isClassEntry item.entry = true := by
  rw [mem_classes, hentries, List.getElem?_map]
  constructor
  · rintro ⟨r, hr, hentry, hclass⟩
    obtain ⟨e, he, rfl⟩ := Option.map_eq_some_iff.1 hr
    exact ⟨he.trans (congrArg some hentry), hclass⟩
  · rintro ⟨he, hclass⟩
    exact ⟨readAs item.entry, by rw [he]; rfl, rfl, hclass⟩

theorem renameClass_eq_ok {item : ClassItem} {p : Nat × List UInt8} :
    renameClass names item = .ok p ↔
      p.1 = item.index ∧ ClassRenaming.renamedBytes names item.entry.bytes = .ok p.2 := by
  rw [renameClass]
  cases ClassRenaming.renamedBytes names item.entry.bytes with
  | ok bytes => simp [Prod.ext_iff, eq_comm]
  | error f => simp

/-- What is found under the index of an entry is the class it holds, under new names. -/
theorem find?_renamed (hentries : a.entries = entries.map readAs)
    (hclasses : a.renameClasses names workers = .ok renamed) {index : Nat} {e : Entry}
    (he : entries[index]? = some e) :
    (Hierarchy.isClassEntry e = true ∧ ∃ bytes,
      renamed.find? (fun r => r.1 = index) = some (index, bytes) ∧
        ClassRenaming.renamedBytes names e.bytes = .ok bytes) ∨
      (Hierarchy.isClassEntry e = false ∧ renamed.find? (fun r => r.1 = index) = none) := by
  obtain ⟨done, hdone, hperm⟩ := Workers.finished_of_workAll hclasses
  cases hfound : renamed.find? fun r => r.1 = index with
  | some p =>
    have hindex : p.1 = index := by simpa using List.find?_some hfound
    have hmem : Except.ok p ∈ done.map (renameClass names) := by
      rw [hdone]
      exact List.mem_map_of_mem (List.mem_of_find?_eq_some hfound)
    obtain ⟨item, hitem, hp⟩ := List.mem_map.1 hmem
    obtain ⟨hsame, hbytes⟩ := renameClass_eq_ok.1 hp
    obtain ⟨hentry, hclass⟩ := (mem_classes_iff hentries).1 (hperm.mem_iff.1 hitem)
    rw [← hsame, hindex, he, Option.some.injEq] at hentry
    rw [hentry]
    exact .inl ⟨hclass, p.2, by rw [← hindex], hbytes⟩
  | none =>
    refine .inr ⟨?_, rfl⟩
    rw [← Bool.not_eq_true]
    intro hclass
    have hitem : (⟨index, e⟩ : ClassItem) ∈ done :=
      hperm.mem_iff.2 ((mem_classes_iff hentries).2 ⟨he, hclass⟩)
    have hmem := List.mem_map_of_mem (f := renameClass names) hitem
    rw [hdone] at hmem
    obtain ⟨p, hp, hok⟩ := List.mem_map.1 hmem
    have hnot := List.find?_eq_none.1 hfound p hp
    exact hnot (by simpa using (renameClass_eq_ok.1 hok.symm).1)

/-- An entry is passed over if it is a reference map, and else written once. -/
theorem writeEntry_eq_ok (hread : read options classpath entries = .ok a)
    (hclasses : a.renameClasses names workers = .ok renamed) {index : Nat} {e : Entry}
    (he : entries[index]? = some e) {new : List Entry}
    (h : a.writeEntry names rules renamed index (readAs e) = .ok new) :
    Forall₂ (Remaps names rules) ([e].filter fun e => !isRefmapOf options entries e) new := by
  have hrefmap := isRefmap_of_read hread (List.mem_of_getElem? he)
  have hone : ∀ {new}, isRefmapOf options entries e = false → Remaps names rules e new →
      Forall₂ (Remaps names rules) ([e].filter fun e => !isRefmapOf options entries e) [new] := by
    intro new hplain hnew
    rw [List.filter_cons_of_pos (by rw [hplain]; rfl)]
    exact .cons hnew .nil
  rw [writeEntry, readAs] at h
  dsimp only at h
  rw [hrefmap] at h
  split at h
  · next hdirectory =>
    have hplain : isRefmapOf options entries e = false := by
      rw [isRefmapOf, Entry.isJson_of_isDirectory hdirectory, Bool.and_false, Bool.false_and]
    cases h
    exact hone hplain (.directory hdirectory)
  · next hdirectory =>
    rw [Bool.not_eq_true] at hdirectory
    split at h
    · next hyes =>
      cases h
      rw [List.filter_cons_of_neg (by rw [hyes]; simp)]
      exact .nil
    · next hno =>
      rw [Bool.not_eq_true] at hno
      rcases find?_renamed (entries_of_read hread) hclasses he with
        ⟨hclass, bytes, hfound, hbytes⟩ | ⟨hclass, hfound⟩
      · rw [hfound] at h
        cases h
        exact hone hno (.ofClass hclass hbytes)
      · rw [hfound] at h
        obtain ⟨bytes, hbytes, hnew⟩ := bind_eq_ok h
        cases hnew
        rw [renameResource] at hbytes
        split at hbytes
        · next rule hrule =>
          exact hone hno (.resource hdirectory hclass hrule (mapError_eq_ok hbytes))
        · next hrule =>
          cases hbytes
          exact hone hno (.other hdirectory hclass hrule)

/-- The entries that are no reference maps are written in their order. -/
theorem writeEntries_eq_ok (hread : read options classpath entries = .ok a)
    (hclasses : a.renameClasses names workers = .ok renamed) {index : Nat} {rest : List Entry}
    (hrest : entries.drop index = rest) {kept : List Entry}
    (h : a.writeEntries names rules renamed index (rest.map readAs) = .ok kept) :
    Forall₂ (Remaps names rules) (rest.filter fun e => !isRefmapOf options entries e) kept := by
  induction rest generalizing index kept with
  | nil =>
    cases h
    exact .nil
  | cons e rest ih =>
    have he : entries[index]? = some e := by
      rw [← List.head?_drop, hrest, List.head?_cons]
    have hlater : entries.drop (index + 1) = rest := by
      rw [← List.tail_drop, hrest, List.tail_cons]
    rw [List.map_cons, writeEntries] at h
    obtain ⟨new, hnew, h⟩ := bind_eq_ok h
    obtain ⟨later, hkept, h⟩ := bind_eq_ok h
    cases h
    rw [← List.singleton_append, List.filter_append]
    exact List.rel_append (writeEntry_eq_ok hread hclasses he hnew) (ih hlater hkept)

/-- Of the names of reference maps those that are JSON files of the archive are written. -/
theorem renameNamed_eq_ok {r : Refmaps}
    (hfiles : ∀ name bytes, r.files.get? name = some bytes →
      ∃ e ∈ entries, e.isJson = true ∧ e.name = name ∧ e.bytes = bytes)
    {named : List String} {maps : List (String × List UInt8)}
    (h : r.renameNamed names named = .ok maps) :
    ∃ found : List Entry, found.map Entry.name = named.filter r.files.contains ∧
      (∀ e ∈ found, e ∈ entries ∧ e.isJson = true) ∧
      Forall₂ (RemapsRefmap r names) found (maps.map fun p => ⟨p.1, p.2⟩) := by
  induction named generalizing maps with
  | nil =>
    cases h
    exact ⟨[], rfl, by simp, .nil⟩
  | cons name named ih =>
    rw [Refmaps.renameNamed] at h
    cases hget : r.files.get? name with
    | none =>
      have hno : r.files.contains name = false := by
        rw [OrderedMap.contains_eq_isSome_get?, hget]
        rfl
      rw [hget] at h
      rw [List.filter_cons_of_neg (by rw [hno]; simp)]
      exact ih h
    | some bytes =>
      have hyes : r.files.contains name = true := by
        rw [OrderedMap.contains_eq_isSome_get?, hget]
        rfl
      obtain ⟨e, he, hjson, rfl, rfl⟩ := hfiles name bytes hget
      rw [hget] at h
      dsimp only at h
      cases hj : Json.ofBytes? e.bytes with
      | none =>
        rw [hj] at h
        cases h
      | some j =>
        rw [hj] at h
        obtain ⟨later, hlater, rfl⟩ := map_eq_ok h
        obtain ⟨found, hnames, hfound, hmaps⟩ := ih hlater
        refine ⟨e :: found, ?_, ?_, .cons ⟨j, hj, rfl⟩ hmaps⟩
        · rw [List.map_cons, hnames, List.filter_cons_of_pos hyes]
        · exact List.forall_mem_cons.2 ⟨⟨he, hjson⟩, hfound⟩

/-- What stands in the second of two related lists is related to something in the first. -/
theorem exists_of_mem_forall₂ {α β : Type} {R : α → β → Prop} {l : List α} {l' : List β}
    (h : Forall₂ R l l') {b : β} (hb : b ∈ l') : ∃ a ∈ l, R a b := by
  induction h with
  | nil => cases hb
  | cons hR _ ih =>
    rcases List.mem_cons.1 hb with rfl | hb
    · exact ⟨_, List.mem_cons_self, hR⟩
    · obtain ⟨a, ha, hab⟩ := ih hb
      exact ⟨a, List.mem_cons_of_mem _ ha, hab⟩

/-- The archive is written in two parts: the entries that are no reference maps, and then JSON
files. -/
theorem exists_parts (hread : read options classpath entries = .ok a)
    (hclasses : a.renameClasses names workers = .ok renamed) {out : List Entry}
    (hwrite : a.write names rules renamed = .ok out) :
    ∃ kept maps, out = kept ++ maps ∧
      Forall₂ (Remaps names rules) (entries.filter fun e => !isRefmapOf options entries e) kept ∧
      ∀ e ∈ maps, e.isJson = true := by
  rw [write, entries_of_read hread] at hwrite
  obtain ⟨kept, hkept, hwrite⟩ := bind_eq_ok hwrite
  obtain ⟨written, hwritten, hwrite⟩ := bind_eq_ok hwrite
  cases hwrite
  obtain ⟨maps, hmaps, hwritten⟩ := bind_eq_ok hwritten
  cases hwritten
  obtain ⟨found, -, hfound, hrenamed⟩ :=
    renameNamed_eq_ok (fun _ _ => exists_entry_of_files hread) (mapError_eq_ok hmaps)
  refine ⟨kept, _, rfl, writeEntries_eq_ok hread hclasses List.drop_zero hkept, ?_⟩
  intro new hnew
  obtain ⟨e, he, j, -, rfl⟩ := exists_of_mem_forall₂ hrenamed hnew
  exact (hfound e he).2

/-- How the entries of an archive are told apart and written: `found` are its reference maps in the
order in which configurations name them, `maps` their new form, and `kept` that of all others. -/
structure Partition (options : RefmapOptions) (r : Refmaps) (names : Resolver)
    (rules : List ResourceRule) (entries out found maps kept : List Entry) : Prop where
  refmaps : found.Perm (entries.filter fun e => isRefmapOf options entries e)
  named : found.Pairwise fun e f =>
    (Refmaps.namedBy entries).idxOf e.name < (Refmaps.namedBy entries).idxOf f.name
  renamed : Forall₂ (RemapsRefmap r names) found maps
  remapped : Forall₂ (Remaps names rules)
    (entries.filter fun e => !isRefmapOf options entries e) kept
  written : out = kept ++ maps

/-- An archive is written in two parts. -/
theorem exists_partition (hnodup : (entries.map Entry.name).Nodup)
    (hread : read options classpath entries = .ok a)
    (hclasses : a.renameClasses names workers = .ok renamed) {out : List Entry}
    (hwrite : a.write names rules renamed = .ok out) :
    ∃ found maps kept, Partition options a.refmaps names rules entries out found maps kept := by
  rw [write, entries_of_read hread] at hwrite
  obtain ⟨kept, hkept, hwrite⟩ := bind_eq_ok hwrite
  obtain ⟨written, hwritten, hwrite⟩ := bind_eq_ok hwrite
  cases hwrite
  obtain ⟨maps, hmaps, hwritten⟩ := bind_eq_ok hwritten
  cases hwritten
  obtain ⟨found, hnames, hfound, hrenamed⟩ :=
    renameNamed_eq_ok (fun _ _ => exists_entry_of_files hread) (mapError_eq_ok hmaps)
  have hnamed : (found.map Entry.name).Pairwise fun name other =>
      (Refmaps.namedBy entries).idxOf name < (Refmaps.namedBy entries).idxOf other := by
    rw [hnames]
    exact (pairwise_named_of_read hread).filter _
  have hmem : ∀ e ∈ entries,
      e.name ∈ found.map Entry.name ↔ isRefmapOf options entries e = true := by
    intro e he
    rw [hnames, List.mem_filter, ← isRefmap_of_read hread he, Refmaps.isRefmap, Bool.and_eq_true,
      List.contains_iff_mem]
  have hdistinct : found.Nodup := by
    apply List.Nodup.of_map Entry.name
    apply hnamed.imp
    rintro name other hlt rfl
    exact Nat.lt_irrefl _ hlt
  -- both lists hold an entry at most once, so it is enough that they hold the same entries
  have hperm : found.Perm (entries.filter fun e => isRefmapOf options entries e) := by
    apply (List.perm_ext_iff_of_nodup hdistinct
      ((List.Nodup.of_map Entry.name hnodup).filter _)).2
    intro e
    rw [List.mem_filter]
    constructor
    · intro he
      have hentry := (hfound e he).1
      exact ⟨hentry, (hmem e hentry).1 (List.mem_map_of_mem he)⟩
    · rintro ⟨hentry, hrefmap⟩
      obtain ⟨f, hf, hname⟩ := List.mem_map.1 ((hmem e hentry).2 hrefmap)
      have hsame : f = e := List.inj_on_of_nodup_map hnodup (hfound f hf).1 hentry hname
      rwa [← hsame]
  rw [List.pairwise_map] at hnamed
  exact ⟨found, _, kept, hperm, hnamed, hrenamed,
    writeEntries_eq_ok hread hclasses List.drop_zero hkept, rfl⟩

/-- A hop loses and duplicates nothing: what it writes are the entries of the archive, each of them
once and in its place. -/
theorem written_partition (hnodup : (entries.map Entry.name).Nodup)
    (hread : read options classpath entries = .ok a)
    (hclasses : a.renameClasses names workers = .ok renamed) {out : List Entry}
    (hwrite : a.write names rules renamed = .ok out) :
    out.length = entries.length ∧
      ∃ found maps kept, Partition options a.refmaps names rules entries out found maps kept := by
  obtain ⟨found, maps, kept, h⟩ := exists_partition hnodup hread hclasses hwrite
  refine ⟨?_, found, maps, kept, h⟩
  calc out.length
    _ = kept.length + maps.length := by rw [h.written, List.length_append]
    _ = (entries.filter fun e => !isRefmapOf options entries e).length +
          (entries.filter fun e => isRefmapOf options entries e).length := by
        rw [h.remapped.length_eq, ← h.renamed.length_eq, h.refmaps.length_eq]
    _ = entries.length := by
        rw [Nat.add_comm, ← List.length_eq_length_filter_add]

section Mixed

open ClassRenaming

/-- A class as it was read and renamed, wherever its entry lies. -/
theorem renameClass_bareClass {item : ClassItem} (h : item.entry.bytes = bareClass.toBytes) :
    renameClass (bareResolverTo "b") item = .ok (item.index, (bareClassTo "b").toBytes) := by
  have hrewriting : Rewriting (bareResolverTo "b") bareClass.toBytes (bareClassTo "b").toBytes
      bareClass (bareClassTo "b") := rewriting_bareClassTo (by decide)
  rw [renameClass, h, renamedBytes_eq_ok.2 ⟨_, _, hrewriting⟩]

theorem renameClasses_bareClass (h : ∀ item ∈ a.classes, item.entry.bytes = bareClass.toBytes) :
    a.renameClasses (bareResolverTo "b") 1 =
      .ok (a.classes.map fun item => (item.index, (bareClassTo "b").toBytes)) :=
  Workers.workAll_one fun item hitem => renameClass_bareClass (h item hitem)

/-- An archive in which a reference map stands before the configuration that names it. -/
def mixedEntries : List Entry :=
  [⟨"r.json", Text.encode "\x7b\"mappings\":\x7b\"M\":\x7b\"x\":\"La;\"\x7d\x7d\x7d".toList⟩,
    ⟨"d/", []⟩, ⟨"d/a.class", bareClass.toBytes⟩,
    ⟨"x.mixins.json", Text.encode "\x7b\"refmap\":\"r.json\"\x7d".toList⟩, ⟨"t.txt", [1]⟩]

/-- The archive as it is read. -/
def mixedArtifact : Artifact where
  entries := mixedEntries.map readAs
  hierarchy := ({} : Hierarchy).insertClass bareClass
  refmaps := mixedEntries.foldl (fun r e => r.read e.name e.bytes) { options := ⟨true, false⟩ }

/-- The archive as it is written: the class under its new name, and the reference map last. -/
def mixedRemapped : List Entry :=
  [⟨"d/", []⟩, ⟨"b.class", (bareClassTo "b").toBytes⟩,
    ⟨"x.mixins.json", Text.encode "\x7b\"refmap\":\"r.json\"\x7d".toList⟩, ⟨"t.txt", [1]⟩,
    ⟨"r.json", Text.encode ("\x7b\n  \"mappings\": \x7b\n    \"M\": \x7b\n" ++
      "      \"x\": \"Lb;\"\n    \x7d\n  \x7d\n\x7d").toList⟩]

theorem read_mixedEntries : read ⟨true, false⟩ {} mixedEntries = .ok mixedArtifact := by
  rfl

theorem renameClasses_mixedArtifact :
    mixedArtifact.renameClasses (bareResolverTo "b") 1 = .ok [(2, (bareClassTo "b").toBytes)] := by
  have hclasses : mixedArtifact.classes = [⟨2, ⟨"d/a.class", bareClass.toBytes⟩⟩] := by rfl
  rw [renameClasses_bareClass (by simp [hclasses]), hclasses]
  rfl

theorem write_mixedArtifact :
    mixedArtifact.write (bareResolverTo "b") [.transformer ⟨false⟩]
      [(2, (bareClassTo "b").toBytes)] = .ok mixedRemapped := by
  decide +kernel

theorem written_partition_mixedEntries :
    mixedRemapped.length = mixedEntries.length ∧
      ∃ found maps kept, Partition ⟨true, false⟩ mixedArtifact.refmaps (bareResolverTo "b")
        [.transformer ⟨false⟩] mixedEntries mixedRemapped found maps kept :=
  written_partition (by decide) read_mixedEntries renameClasses_mixedArtifact write_mixedArtifact

end Mixed

end JarRemap.Artifact

/-!
## Names of written entries

An entry that holds a class is named for the class and not for the entry it was read from, so two
classes may be written under one name. Classes never take the name of anything else.
-/

namespace JarRemap.Artifact

open List (Forall₂)

variable {options : RefmapOptions} {classpath : Hierarchy} {names : Resolver}
  {rules : List ResourceRule} {workers : Nat} {entries : List Entry} {a : Artifact}
  {renamed : List (Nat × List UInt8)} {e new : Entry}

/-- The name under which an entry is written. -/
def writtenName (names : Resolver) (e : Entry) : String := newEntryName names (readAs e)

/-- Entries that hold no class keep their names. -/
theorem writtenName_of_plain (h : Hierarchy.isClassEntry e = false) :
    writtenName names e = e.name := by
  rw [writtenName, newEntryName, readAs, className?, if_neg (by rw [h]; simp)]

theorem isClassEntry_of_isDirectory (h : e.isDirectory = true) :
    Hierarchy.isClassEntry e = false := by
  rw [Hierarchy.isClassEntry, h]
  rfl

theorem name_of_remaps (h : Remaps names rules e new) : new.name = writtenName names e := by
  cases h with
  | directory hdirectory =>
    exact (writtenName_of_plain (isClassEntry_of_isDirectory hdirectory)).symm
  | ofClass hclass hbytes => rfl
  | resource hdirectory hclass hrule hbytes => exact (writtenName_of_plain hclass).symm
  | other hdirectory hclass hrule => exact (writtenName_of_plain hclass).symm

theorem map_name_of_forall₂ {R : Entry → Entry → Prop} {l new : List Entry}
    (hname : ∀ e ∈ l, ∀ f, R e f → f.name = writtenName names e) (h : Forall₂ R l new) :
    new.map Entry.name = l.map (writtenName names) := by
  induction h with
  | nil => rfl
  | cons hR h ih =>
    rw [List.forall_mem_cons] at hname
    rw [List.map_cons, List.map_cons, hname.1 _ hR, ih hname.2]

/-- Every entry is written under its name. -/
theorem names_perm_of_partition {r : Refmaps} {out found maps kept : List Entry}
    (h : Partition options r names rules entries out found maps kept) :
    (out.map Entry.name).Perm (entries.map (writtenName names)) := by
  have hmaps : maps.map Entry.name = found.map (writtenName names) := by
    apply map_name_of_forall₂ _ h.renamed
    rintro e he new ⟨j, -, rfl⟩
    have hrefmap := (List.mem_filter.1 (h.refmaps.mem_iff.1 he)).2
    rw [isRefmapOf, Bool.and_eq_true, Bool.and_eq_true] at hrefmap
    have hplain : Hierarchy.isClassEntry e = false := by
      rw [← Bool.not_eq_true]
      intro hclass
      rw [Entry.isJson_of_isClassEntry hclass] at hrefmap
      cases hrefmap.1.2
    exact (writtenName_of_plain hplain).symm
  have hkept := map_name_of_forall₂ (fun _ _ _ => name_of_remaps) h.remapped
  have hparts : ((entries.filter fun e => !isRefmapOf options entries e) ++ found).Perm entries :=
    List.perm_append_comm.trans
      ((h.refmaps.append_right _).trans (List.filter_append_perm _ entries))
  rw [h.written, List.map_append, hkept, hmaps, ← List.map_append]
  exact hparts.map _

/-- Classes are written under names of classes. -/
theorem isSuffixOf_writtenName (h : Hierarchy.isClassEntry e = true) :
    ".class".toList.isSuffixOf (writtenName names e).toList = true := by
  rw [writtenName, newEntryName, readAs]
  dsimp only
  split
  · rw [Hierarchy.isClassEntry, Bool.and_eq_true] at h
    exact h.2
  · rw [String.toList_append]
    exact List.isSuffixOf_iff_suffix.2 (List.suffix_append _ _)

/-- No entry that holds no class has the name of a class. -/
theorem writtenName_ne {other : Entry} (h : Hierarchy.isClassEntry e = true)
    (hother : Hierarchy.isClassEntry other = false) : writtenName names e ≠ other.name := by
  intro hsame
  have hsuffix : ".class".toList.isSuffixOf (writtenName names e).toList = true :=
    isSuffixOf_writtenName h
  rw [hsame] at hsuffix
  rw [Hierarchy.isClassEntry, hsuffix, Bool.and_true, Bool.not_eq_false', Entry.isDirectory,
    getLast?_of_isSuffixOf (c := 's') rfl hsuffix] at hother
  exact absurd hother (by decide)

/-- No two entries are written under one name if and only if no two classes are: what is no class
keeps its name, and no class takes it. -/
theorem nodup_written_iff (hnodup : (entries.map Entry.name).Nodup)
    (hread : read options classpath entries = .ok a)
    (hclasses : a.renameClasses names workers = .ok renamed) {out : List Entry}
    (hwrite : a.write names rules renamed = .ok out) :
    (out.map Entry.name).Nodup ↔
      ((entries.filter Hierarchy.isClassEntry).map (writtenName names)).Nodup := by
  obtain ⟨found, maps, kept, hpartition⟩ := exists_partition hnodup hread hclasses hwrite
  have hparts := (List.filter_append_perm Hierarchy.isClassEntry entries).map (writtenName names)
  have hplain : ∀ e ∈ entries.filter fun e => !Hierarchy.isClassEntry e,
      Hierarchy.isClassEntry e = false := by
    intro e he
    simpa using (List.mem_filter.1 he).2
  have hkeep : (entries.filter fun e => !Hierarchy.isClassEntry e).map (writtenName names) =
      (entries.filter fun e => !Hierarchy.isClassEntry e).map Entry.name :=
    List.map_congr_left fun e he => writtenName_of_plain (hplain e he)
  rw [(names_perm_of_partition hpartition).nodup_iff, ← hparts.nodup_iff, List.map_append, hkeep,
    List.nodup_append]
  constructor
  · exact fun h => h.1
  · intro h
    refine ⟨h, hnodup.sublist (List.filter_sublist.map _), ?_⟩
    intro name hname other hother
    obtain ⟨e, he, rfl⟩ := List.mem_map.1 hname
    obtain ⟨f, hf, rfl⟩ := List.mem_map.1 hother
    exact writtenName_ne (List.mem_filter.1 he).2 (hplain f hf)

theorem nodup_written_iff_mixedEntries : (mixedRemapped.map Entry.name).Nodup :=
  (nodup_written_iff (by decide) read_mixedEntries renameClasses_mixedArtifact
    write_mixedArtifact).2 (by decide +kernel)

section Twins

open ClassRenaming

/-- An archive in which two entries hold a class of one name. -/
def twinEntries : List Entry := [⟨"a.class", bareClass.toBytes⟩, ⟨"d/a.class", bareClass.toBytes⟩]

/-- The archive as it is read. -/
def twinArtifact : Artifact where
  entries := twinEntries.map readAs
  hierarchy := (({} : Hierarchy).insertClass bareClass).insertClass bareClass
  refmaps := { options := ⟨true, false⟩ }

def twinRemapped : List Entry :=
  [⟨"b.class", (bareClassTo "b").toBytes⟩, ⟨"b.class", (bareClassTo "b").toBytes⟩]

/-- Both entries are written, under one name. -/
theorem written_twinEntries :
    (twinEntries.map Entry.name).Nodup ∧ read ⟨true, false⟩ {} twinEntries = .ok twinArtifact ∧
      (∃ renamed, twinArtifact.renameClasses (bareResolverTo "b") 1 = .ok renamed ∧
        twinArtifact.write (bareResolverTo "b") [] renamed = .ok twinRemapped) ∧
      ¬ (twinRemapped.map Entry.name).Nodup := by
  have hclasses : twinArtifact.classes =
      [⟨0, ⟨"a.class", bareClass.toBytes⟩⟩, ⟨1, ⟨"d/a.class", bareClass.toBytes⟩⟩] := by rfl
  have hrenamed : twinArtifact.renameClasses (bareResolverTo "b") 1 =
      .ok [(0, (bareClassTo "b").toBytes), (1, (bareClassTo "b").toBytes)] := by
    rw [renameClasses, hclasses]
    simp [Workers.workAll, Workers.shares, Workers.chunksOf, Workers.sequential, Workers.run,
      Workers.turn, Workers.State.outcome, renameClass_bareClass, List.replicate]
  exact ⟨by decide, by rfl, ⟨_, hrenamed, by decide +kernel⟩, by decide⟩

end Twins

end JarRemap.Artifact
