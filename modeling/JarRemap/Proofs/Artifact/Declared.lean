import JarRemap.Proofs.Artifact.Writing
import JarRemap.Proofs.Renaming.Written
import JarRemap.Proofs.Text.Split
import Mathlib.Logic.Relation

/-!
# Classes stand under the names they declare

The entry of a class is named while it is written, the class itself while its constants are renamed.
Both come to the same name: whatever hops an archive goes through, each of its classes stands under
the name that its own bytes declare. In front of that name there is nothing but the directory of a
later language version, and only where the class was found in one at first.
-/

namespace JarRemap.Artifact

open ClassRenaming
open Relation (TransGen)

variable {names : Resolver} {entries out first last : List Entry} {e new : Entry} {c c' : ClassFile}
  {before : List Char}

/-- An entry that is named for the class it holds, behind some directory. -/
structure Declares (before : List Char) (e : Entry) (c : ClassFile) : Prop where
  read : ClassFile.parse e.bytes = .ok c
  name : e.name = String.ofList before ++ c.name ++ ".class"

theorem Declares.unique (h : Declares before e c) (hread : ClassFile.parse e.bytes = .ok c') :
    c' = c :=
  Except.ok.inj (hread.symm.trans h.read)

/-- A directory for classes of a later language version. -/
def IsVersion (before : List Char) : Prop :=
  versionsDirectory.toList <+: before ∧ before.getLast? = some '/'

/-- The version found in front of a class is a directory that the name of the entry has there. -/
theorem versionOf_eq (entry className : String) :
    versionOf entry className = [] ∨ IsVersion (versionOf entry className) ∧
      entry = String.ofList (versionOf entry className) ++ className ++ ".class" := by
  rw [versionOf]
  split
  · exact .inl rfl
  · next before hbefore =>
    obtain ⟨named, hnamed, hbefore⟩ := Option.bind_eq_some_iff.1 hbefore
    rw [Text.stripEnd?_eq_some_iff] at hnamed hbefore
    split
    · next hversion =>
      rw [Bool.and_eq_true, List.isPrefixOf_iff_prefix, decide_eq_true_eq] at hversion
      refine .inr ⟨hversion, ?_⟩
      rw [← String.toList_inj, String.toList_append, String.toList_append, String.toList_ofList,
        hbefore, hnamed]
    · exact .inl rfl

/-- The version in front of a class that stands under its name is found again. -/
theorem Declares.versionOf_eq (h : Declares before e c)
    (hversion : before = [] ∨ IsVersion before) : versionOf e.name c.name = before := by
  have hname : (before ++ c.name.toList) ++ ".class".toList = e.name.toList := by
    rw [h.name, String.toList_append, String.toList_append, String.toList_ofList (l := before)]
  rw [versionOf, Text.stripEnd?_eq_some_iff.2 hname]
  dsimp only [Option.bind_some]
  rw [Text.stripEnd?_eq_some_iff.2 rfl]
  dsimp only
  rcases hversion with rfl | hversion
  · exact ite_self []
  · rw [if_pos]
    rw [Bool.and_eq_true, List.isPrefixOf_iff_prefix, decide_eq_true_eq]
    exact hversion

/-- No class of an archive gets a text that is too long to be written. -/
def StaysShort (names : Resolver) (entries : List Entry) : Prop :=
  ∀ e ∈ entries, Hierarchy.isClassEntry e = true → ∀ bytes c c',
    Rewriting names e.bytes bytes c c' → ∀ constant ∈ c'.constants.toList, constant.Short

/-- A hop over an archive that goes well and in which no text grows too long. -/
structure Leads (names : Resolver) (old new : List Entry) : Prop where
  written : ∃ options classpath rules workers a renamed, read options classpath old = .ok a ∧
    a.renameClasses names workers = .ok renamed ∧ a.write names rules renamed = .ok new
  short : StaysShort names old

/-- Some hop that goes well, whatever it renames by. -/
def LeadsTo (old new : List Entry) : Prop := ∃ names, Leads names old new

theorem className?_of_parse (hclass : Hierarchy.isClassEntry e = true)
    (hread : ClassFile.parse e.bytes = .ok c) : className? e = some c.name := by
  rw [className?, if_pos hclass, hread]
  rfl

/-- A class that is written stands under its new name, behind the version in front of the old. -/
theorem declares_of_remaps {rules : List ResourceRule} (h : Remaps names rules e new)
    (hclass : Hierarchy.isClassEntry e = true) (hshort : StaysShort names entries)
    (he : e ∈ entries) :
    ∃ c c', ClassFile.parse e.bytes = .ok c ∧ c'.name = Symbol.newOwner names c.name ∧
      Declares (versionOf e.name c.name) new c' := by
  cases h with
  | directory hdirectory =>
    rw [isClassEntry_of_isDirectory hdirectory] at hclass
    cases hclass
  | ofClass _ hbytes =>
    obtain ⟨c, c', hrewriting⟩ := renamedBytes_eq_ok.1 hbytes
    obtain ⟨hwell, lambdas, -, hsymbols⟩ :=
      renamed_spec (ClassFile.framed_of_parse hrewriting.read) hrewriting.renamed
    have hread : ClassFile.parse c'.toBytes = .ok c' :=
      ClassFile.parse_toBytes hwell (hshort e he hclass _ c c' hrewriting)
    refine ⟨c, c', hrewriting.read, hsymbols.name, ?_, ?_⟩
    · rw [← hrewriting.written]
      exact hread
    · rw [newEntryName, readAs, className?_of_parse hclass hrewriting.read, hsymbols.name]
      rfl
  | resource _ hplain =>
    rw [hplain] at hclass
    cases hclass
  | other _ hplain =>
    rw [hplain] at hclass
    cases hclass

/-- Every class that a hop writes comes of a class of the archive and stands under its name. -/
theorem exists_declares_of_leads (h : Leads names entries out) (hnew : new ∈ out)
    (hclass : Hierarchy.isClassEntry new = true) :
    ∃ e ∈ entries, Hierarchy.isClassEntry e = true ∧ ∃ c c', ClassFile.parse e.bytes = .ok c ∧
      c'.name = Symbol.newOwner names c.name ∧ Declares (versionOf e.name c.name) new c' := by
  obtain ⟨options, classpath, rules, workers, a, renamed, hread, hclasses, hwrite⟩ := h.written
  obtain ⟨kept, maps, rfl, hkept, hmaps⟩ := exists_parts hread hclasses hwrite
  have hmem : new ∈ kept := by
    refine (List.mem_append.1 hnew).resolve_right fun hmap => ?_
    have hjson := hmaps new hmap
    rw [Entry.isJson_of_isClassEntry hclass] at hjson
    cases hjson
  obtain ⟨e, he, hremaps⟩ := exists_of_mem_forall₂ hkept hmem
  have he := (List.mem_filter.1 he).1
  have hold : Hierarchy.isClassEntry e = true := by
    cases hplain : Hierarchy.isClassEntry e with
    | true => rfl
    | false =>
      rw [Hierarchy.isClassEntry, Entry.isDirectory, name_of_remaps hremaps,
        writtenName_of_plain hplain, ← Entry.isDirectory, ← Hierarchy.isClassEntry,
        hplain] at hclass
      cases hclass
  exact ⟨e, he, hold, declares_of_remaps hremaps hold h.short he⟩

/-- Every class keeps the name of the class it declares, through any number of hops: it stands under
the name that its bytes declare, behind the version in front of it in the first archive. That is
nothing, or a directory of a later version in which the class stood under its old name. -/
theorem declares_of_hops (h : TransGen LeadsTo first last) (hnew : new ∈ last)
    (hclass : Hierarchy.isClassEntry new = true) :
    ∃ e ∈ first, Hierarchy.isClassEntry e = true ∧ ∃ c c', ClassFile.parse e.bytes = .ok c ∧
      Declares (versionOf e.name c.name) new c' ∧
        (versionOf e.name c.name = [] ∨
          IsVersion (versionOf e.name c.name) ∧ Declares (versionOf e.name c.name) e c) := by
  induction h generalizing new with
  | single hop =>
    obtain ⟨names, hop⟩ := hop
    obtain ⟨e, he, hold, c, c', hread, -, hdeclares⟩ := exists_declares_of_leads hop hnew hclass
    exact ⟨e, he, hold, c, c', hread, hdeclares,
      (versionOf_eq e.name c.name).imp id fun hfound => ⟨hfound.1, hread, hfound.2⟩⟩
  | tail _ hop ih =>
    obtain ⟨names, hop⟩ := hop
    obtain ⟨middle, hmiddle, hold, cm, c', hread, -, hdeclares⟩ :=
      exists_declares_of_leads hop hnew hclass
    obtain ⟨e, he, hfirst, c, cm', hparse, hbetween, hversion⟩ := ih hmiddle hold
    -- the version that this hop finds in front of the class is the one it was written behind
    rw [hbetween.unique hread, hbetween.versionOf_eq (hversion.imp id And.left)] at hdeclares
    exact ⟨e, he, hfirst, c, c', hparse, hdeclares, hversion⟩

section Versioned

/-- A resolver that knows no names. -/
def emptyResolver : Resolver where
  dictionary := { source := ⟨"intermediary", false⟩, target := ⟨"named", false⟩ }

/-- An archive of which every entry holds one class, as it is read. -/
def artifactOf (c : ClassFile) (entries : List Entry) : Artifact where
  entries := entries.map readAs
  hierarchy := entries.foldl (fun h _ => h.insertClass c) {}
  refmaps := { options := ⟨true, false⟩ }

theorem read_artifactOf (h : ∀ e ∈ entries, Hierarchy.isClassEntry e = true ∧
    ClassFile.parse e.bytes = .ok c) :
    read ⟨true, false⟩ {} entries = .ok (artifactOf c entries) := by
  have hrest : ∀ a : Artifact, entries.foldlM readEntry a = .ok { a with
      entries := a.entries ++ entries.map readAs
      hierarchy := entries.foldl (fun h _ => h.insertClass c) a.hierarchy } := by
    induction entries with
    | nil =>
      intro a
      rw [List.map_nil, List.append_nil]
      rfl
    | cons e entries ih =>
      intro a
      rw [List.forall_mem_cons] at h
      have hentry : a.readEntry e = .ok { a with
          entries := a.entries ++ [readAs e]
          hierarchy := a.hierarchy.insertClass c } := by
        rw [readEntry, if_pos h.1.1, h.1.2, readAs, className?_of_parse h.1.1 h.1.2]
      rw [List.foldlM_cons, hentry]
      refine (ih h.2 _).trans ?_
      rw [List.map_cons, List.append_cons a.entries (readAs e) (entries.map readAs)]
      rfl
  exact hrest _

/-- An archive in which one class stands in a directory of a later version, and one in a directory
that has nothing to do with its name. -/
def versionedEntries : List Entry :=
  [⟨"META-INF/versions/9/a.class", bareClass.toBytes⟩, ⟨"d/a.class", bareClass.toBytes⟩]

/-- The archive under new names. -/
def versionedRemapped : List Entry :=
  [⟨"META-INF/versions/9/b.class", (bareClassTo "b").toBytes⟩,
    ⟨"b.class", (bareClassTo "b").toBytes⟩]

theorem short_bareClassTo {constant : Constant}
    (h : constant ∈ (bareClassTo "b").constants.toList) : constant.Short := by
  rintro text rfl
  have htext : text = "a" ∨ text = "b" := by simpa [bareClassTo] using h
  rcases htext with rfl | rfl
  · decide
  · decide

/-- A hop over an archive of which every entry holds one class. -/
theorem leads_of_rewriting {old renamed : List UInt8}
    (h : Rewriting names old renamed c (bareClassTo "b"))
    (hentries : ∀ f ∈ entries, Hierarchy.isClassEntry f = true ∧ f.bytes = old)
    (hwrite : (artifactOf c entries).write names []
      ((artifactOf c entries).classes.map fun item => (item.index, renamed)) = .ok out) :
    Leads names entries out := by
  have hread : read ⟨true, false⟩ {} entries = .ok (artifactOf c entries) :=
    read_artifactOf fun f hf => ⟨(hentries f hf).1, (hentries f hf).2 ▸ h.read⟩
  refine ⟨⟨_, _, [], 1, _, _, hread, Workers.workAll_one fun item hitem => ?_, hwrite⟩, ?_⟩
  · have hmem := List.mem_of_getElem? ((mem_classes_iff (entries_of_read hread)).1 hitem).1
    rw [renameClass, (hentries _ hmem).2, renamedBytes_eq_ok.2 ⟨_, _, h⟩]
  · intro f hf _ bytes c₁ c₁' hrewriting constant hconstant
    rw [(hentries f hf).2] at hrewriting
    rw [(h.unique hrewriting).2] at hconstant
    exact short_bareClassTo hconstant

theorem leadsTo_versionedEntries : LeadsTo versionedEntries versionedRemapped := by
  have hrewriting : Rewriting (bareResolverTo "b") bareClass.toBytes (bareClassTo "b").toBytes
      bareClass (bareClassTo "b") := rewriting_bareClassTo (by decide)
  exact ⟨bareResolverTo "b", leads_of_rewriting hrewriting (by decide) (by decide +kernel)⟩

/-- A hop that knows no names leaves the archive as it is. -/
theorem leadsTo_versionedRemapped : LeadsTo versionedRemapped versionedRemapped := by
  have hrewriting : Rewriting emptyResolver (bareClassTo "b").toBytes (bareClassTo "b").toBytes
      (bareClassTo "b") (bareClassTo "b") := ⟨by decide +kernel, by decide +kernel, rfl⟩
  exact ⟨emptyResolver, leads_of_rewriting hrewriting (by decide) (by decide +kernel)⟩

/-- The class of a later version stays in its directory through two hops. -/
theorem declares_of_hops_versionedEntries :
    TransGen LeadsTo versionedEntries versionedRemapped ∧
      ∃ e ∈ versionedEntries, Hierarchy.isClassEntry e = true ∧ ∃ c c',
        ClassFile.parse e.bytes = .ok c ∧
          Declares (versionOf e.name c.name)
            ⟨"META-INF/versions/9/b.class", (bareClassTo "b").toBytes⟩ c' ∧
          (versionOf e.name c.name = [] ∨
            IsVersion (versionOf e.name c.name) ∧ Declares (versionOf e.name c.name) e c) := by
  have hhops := TransGen.tail (.single leadsTo_versionedEntries) leadsTo_versionedRemapped
  exact ⟨hhops, declares_of_hops hhops List.mem_cons_self (by decide)⟩

end Versioned

end JarRemap.Artifact
