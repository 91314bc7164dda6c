import JarRemap.Proofs.Artifact.Writing
import JarRemap.Proofs.Resource.Header

/-!
# Access wideners of an archive

Where the first rule of a hop is the one for access wideners, every access widener of an archive is
renamed by it and written under its own name, in its place among the others.
-/

namespace JarRemap.Artifact

open List (Forall₂)
open Resource (AccessWidener)

variable {options : RefmapOptions} {classpath : Hierarchy} {names : Resolver}
  {rules : List ResourceRule} {workers : Nat} {entries : List Entry} {a : Artifact}
  {renamed : List (Nat × List UInt8)} {e new : Entry} {w : AccessWidener}

/-- Whether an entry is an access widener. -/
def isWidener (e : Entry) : Bool := AccessWidener.accepts e.name

theorem getLast?_of_isWidener (h : isWidener e = true) : e.name.toList.getLast? = some 'r' :=
  getLast?_of_isSuffixOf (c := 'r') rfl h

theorem isClassEntry_of_isWidener (h : isWidener e = true) : Hierarchy.isClassEntry e = false := by
  cases hclass : Hierarchy.isClassEntry e with
  | false => rfl
  | true =>
    rw [Hierarchy.isClassEntry, Bool.and_eq_true] at hclass
    have hlast := getLast?_of_isSuffixOf (c := 's') rfl hclass.2
    rw [getLast?_of_isWidener h] at hlast
    exact absurd hlast (by decide)

theorem isDirectory_of_isWidener (h : isWidener e = true) : e.isDirectory = false := by
  rw [Entry.isDirectory, getLast?_of_isWidener h]
  rfl

theorem isWidener_of_isJson (h : e.isJson = true) : isWidener e = false := by
  cases hwidener : isWidener e with
  | false => rfl
  | true =>
    have hlast := getLast?_of_isSuffixOf (c := 'n') rfl h
    rw [getLast?_of_isWidener hwidener] at hlast
    exact absurd hlast (by decide)

/-- An entry is an access widener if what becomes of it is one. -/
theorem isWidener_of_remaps (h : Remaps names rules e new) : isWidener new = isWidener e := by
  cases hclass : Hierarchy.isClassEntry e with
  | false => rw [isWidener, isWidener, name_of_remaps h, writtenName_of_plain hclass]
  | true =>
    have hold : isWidener e = false := by
      rw [← Bool.not_eq_true]
      intro hwidener
      rw [isClassEntry_of_isWidener hwidener] at hclass
      cases hclass
    have hsuffix : ".class".toList.isSuffixOf (writtenName names e).toList = true :=
      isSuffixOf_writtenName hclass
    rw [hold, ← Bool.not_eq_true]
    intro hwidener
    have hlast := getLast?_of_isWidener hwidener
    rw [name_of_remaps h, getLast?_of_isSuffixOf (c := 's') rfl hsuffix] at hlast
    exact absurd hlast (by decide)

/-- What becomes of an access widener, where the rule for access wideners comes first. -/
def Widens (w : AccessWidener) (names : Resolver) (e new : Entry) : Prop :=
  new.name = e.name ∧ w.transform e.name e.bytes names.dictionary = .ok new.bytes

theorem widens_of_remaps (h : Remaps names (.widener w :: rules) e new)
    (hwidener : isWidener e = true) : Widens w names e new := by
  have hfirst : (ResourceRule.widener w :: rules).find? (fun r => r.accepts e.name) =
      some (.widener w) := List.find?_cons_of_pos hwidener
  cases h with
  | directory hdirectory =>
    rw [isDirectory_of_isWidener hwidener] at hdirectory
    cases hdirectory
  | ofClass hclass =>
    rw [isClassEntry_of_isWidener hwidener] at hclass
    cases hclass
  | resource _ _ hrule hbytes =>
    cases hfirst.symm.trans hrule
    exact ⟨rfl, mapError_eq_ok hbytes⟩
  | other _ _ hrule =>
    rw [hfirst] at hrule
    cases hrule

/-- The access wideners of the written archive are those of the archive, in order, each renamed. -/
theorem widens_of_write (hread : read options classpath entries = .ok a)
    (hclasses : a.renameClasses names workers = .ok renamed) {out : List Entry}
    (hwrite : a.write names (.widener w :: rules) renamed = .ok out) :
    Forall₂ (Widens w names) (entries.filter isWidener) (out.filter isWidener) := by
  obtain ⟨kept, maps, rfl, hkept, hmaps⟩ := exists_parts hread hclasses hwrite
  have hnone : maps.filter isWidener = [] :=
    List.filter_eq_nil_iff.2 fun e he => by rw [isWidener_of_isJson (hmaps e he)]; simp
  have hall : (entries.filter fun e => !isRefmapOf options entries e).filter isWidener =
      entries.filter isWidener := by
    rw [List.filter_filter]
    refine List.filter_congr fun e _ => ?_
    cases hwidener : isWidener e with
    | false => rfl
    | true =>
      have hjson : e.isJson = false := by
        rw [← Bool.not_eq_true]
        intro hjson
        rw [isWidener_of_isJson hjson] at hwidener
        cases hwidener
      rw [isRefmapOf, hjson, Bool.and_false, Bool.false_and]
      rfl
  rw [List.filter_append, hnone, List.append_nil, ← hall]
  have hrelated := List.rel_filter (p := isWidener) (q := isWidener)
    (fun e new h => by simp only [isWidener_of_remaps h]) hkept
  have hboth := (List.forall₂_and_left _ _).2 ⟨fun e he => (List.mem_filter.1 he).2, hrelated⟩
  exact hboth.imp fun e new h => widens_of_remaps h.2 h.1

end JarRemap.Artifact
