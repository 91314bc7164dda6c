import JarRemap.Adapt
import JarRemap.Format.Parse
import JarRemap.Proofs.Adapt.Rekey
import JarRemap.Proofs.Artifact.Reading
import JarRemap.Proofs.Format.Bytewise.TinyTree

/-!
# What every format reads

What is true of a source whatever format it was read in: where its lineage leads to, and how many
names its records have.
-/

/-!
## The lineage of a source

The lineage of a source that is read from its text alone is the list of its namespaces. The exported
tables, which are looked up in a tree, join readable names to a namespace of that tree instead. In
both cases the lineage leads to every namespace that the source could bring in, and it still does
when the source is keyed by another of its namespaces.
-/

namespace JarRemap

open Artifact (mapError_eq_ok)

theorem perm_swapFirst {α : Type} (k : Nat) (l : List α) : (swapFirst k l).Perm l := by
  unfold swapFirst
  split
  · next a rest b hb =>
    obtain ⟨hk, rfl⟩ := List.getElem?_eq_some_iff.1 hb
    exact List.set_set_perm hk (Nat.zero_lt_succ _)
  · exact .refl _

namespace Source

/-- A source whose lineage holds together over its own namespaces and those of a tree: every
namespace of the source is on the lineage or in the tree, and the lineage meets the tree or the
key. -/
structure Anchored (known : List String) (s : Source) : Prop where
  within : ∀ name ∈ s.lineage, name ∈ s.namespaces ∨ name ∈ known
  covered : ∀ name ∈ s.namespaces, name ∈ s.lineage ∨ name ∈ known
  anchored : s.namespaces ⊆ s.lineage ∨ ∃ name ∈ s.lineage, name ∈ known

variable {known : List String} {s s' : Source}

theorem Anchored.of_lineage_eq (h : s.lineage = s.namespaces) : s.Anchored known where
  within _ hname := .inl (h ▸ hname)
  covered _ hname := .inl (h ▸ hname)
  anchored := .inl (h ▸ List.Subset.refl _)

/-- The order of the namespaces does not matter. -/
theorem Anchored.of_perm (h : s.Anchored known) (hlineage : s'.lineage = s.lineage)
    (hperm : s'.namespaces.Perm s.namespaces) : s'.Anchored known where
  within name hname := (h.within name (hlineage ▸ hname)).imp_left hperm.mem_iff.2
  covered name hname := hlineage ▸ h.covered name (hperm.mem_iff.1 hname)
  anchored := hlineage ▸ h.anchored.imp_left fun hall _ hname => hall (hperm.subset hname)

theorem lineage_rekey (namespaceName : String) : (s.rekey namespaceName).lineage = s.lineage := by
  unfold rekey
  split
  · rfl
  · split <;> rfl

theorem perm_namespaces_rekey (namespaceName : String) :
    (s.rekey namespaceName).namespaces.Perm s.namespaces := by
  unfold rekey
  split
  · exact .refl _
  · split
    · exact .refl _
    · next column hcolumn =>
      obtain ⟨hlt, -⟩ := List.idxOf?_eq_some_iff.1 hcolumn
      rw [namespaces_rekeyColumn hlt]
      exact perm_swapFirst column s.namespaces

theorem rename_empty (s : Source) : s.rename {} = s := by
  have hsame : (fun name : String => (OrderedMap.get? {} name).getD name) = id := rfl
  simp only [rename, hsame, List.map_id]
  rfl

/-- A source that has its key already, and of which everything is kept, stays as it is. -/
theorem adapt_key (s : Source) : s.adapt { source := s.key } = s := by
  rw [adapt, rename_empty, rekey, if_pos rfl]
  rfl

/-- Without renames and a filter, adapting leaves the lineage, and puts the namespaces in another
order at most. -/
theorem Anchored.adapt (h : s.Anchored known) {a : Adaptation} (hrenames : a.renames = {})
    (hfilter : a.filter = []) : (s.adapt a).Anchored known := by
  have hkeep : (((s.rename a.renames).rekey a.source).keep a.filter) = s.rekey a.source := by
    rw [hrenames, rename_empty, hfilter]
    rfl
  have hrekey : (s.rekey a.source).Anchored known :=
    h.of_perm (lineage_rekey a.source) (perm_namespaces_rekey a.source)
  unfold Source.adapt
  rw [hkeep]
  cases a.edit with
  | none => exact hrekey
  | some f => exact hrekey.of_perm rfl (.refl _)

end Source

namespace Format

variable {text : List Char} {s : Source}

/-- A source of records over fixed namespaces. -/
theorem lineage_of_bind {ε α : Type} {x : Except ε α} {key : String} {destinations : List String}
    {records : α → List Record}
    (h : (x >>= fun a => .ok ((Source.start key destinations).pushAll (records a))) = .ok s) :
    s.lineage = s.namespaces := by
  obtain ⟨a, -, h⟩ := Artifact.bind_eq_ok h
  cases h
  rfl

theorem lineage_tiny (h : Tiny.parse text = .ok s) : s.lineage = s.namespaces := by
  obtain ⟨⟨key, others⟩, -, h⟩ := Artifact.bind_eq_ok h
  exact lineage_of_bind h

theorem lineage_tinyTree (h : TinyTree.parse text = .ok s) : s.lineage = s.namespaces := by
  obtain ⟨⟨key, others⟩, -, h⟩ := Artifact.bind_eq_ok h
  obtain ⟨state, -, h⟩ := Artifact.bind_eq_ok h
  cases h
  rfl

theorem lineage_wide (h : Tsrg.Wide.parse text = .ok s) : s.lineage = s.namespaces := by
  obtain ⟨⟨key, others⟩, -, h⟩ := Artifact.bind_eq_ok h
  exact lineage_of_bind h

theorem lineage_parchment (h : Parchment.parse? text = some s) : s.lineage = s.namespaces := by
  obtain ⟨d, -, h⟩ := Option.bind_eq_some_iff.1 h
  obtain ⟨classes, -, h⟩ := Option.bind_eq_some_iff.1 h
  cases h
  rfl

namespace Mcp

variable {file : String} {side : Side} {tree : MappingTree}

/-- The middle layout names the obfuscated symbols itself. -/
theorem lineage_parseOld (h : parseOld file side text = .ok s) : s.lineage = s.namespaces := by
  unfold parseOld at h
  dsimp only at h
  split at h
  · exact lineage_of_bind h
  · exact lineage_of_bind h
  · exact lineage_of_bind h
  · cases h

/-- What is looked up in a tree is joined to its searge names. -/
theorem anchored_source {format : Format} {lookup : Lookup}
    (h : Lookup.ofTree format tree = .ok lookup) (records : List Record) :
    (lookup.source records).Anchored tree.namespaces := by
  unfold Lookup.ofTree at h
  split at h
  · next column hcolumn =>
    cases h
    obtain ⟨hlt, hsearge⟩ := List.idxOf?_eq_some_iff.1 hcolumn
    have hmem : Namespace.searge ∈ tree.namespaces := hsearge.1 ▸ List.getElem_mem hlt
    have hhead : tree.namespaces.headD Namespace.official ∈ tree.namespaces := by
      cases hnames : tree.namespaces with
      | nil => rw [hnames] at hmem; cases hmem
      | cons name rest => exact List.mem_cons_self
    constructor
    case within =>
      intro name hname
      rcases List.mem_cons.1 hname with rfl | hname
      · exact .inr hmem
      · exact .inl (List.mem_cons_of_mem _ hname)
    case covered =>
      intro name hname
      rcases List.mem_cons.1 hname with rfl | hname
      · exact .inr hhead
      · exact .inl (List.mem_cons_of_mem _ hname)
    case anchored => exact .inr ⟨Namespace.searge, List.mem_cons_self, hmem⟩
  · cases h

theorem anchored_parse (h : parse file side tree text = .ok s) : s.Anchored tree.namespaces := by
  obtain ⟨lookup, hlookup, h⟩ := Artifact.bind_eq_ok h
  dsimp only at h
  split at h
  · obtain ⟨rows, -, h⟩ := Artifact.bind_eq_ok h
    cases h
    exact anchored_source hlookup _
  · obtain ⟨rows, -, h⟩ := Artifact.bind_eq_ok h
    cases h
    exact anchored_source hlookup _
  · obtain ⟨rows, -, h⟩ := Artifact.bind_eq_ok h
    cases h
    exact anchored_source hlookup _
  · cases h

theorem anchored_parseOlder (h : parseOlder file side tree text = .ok s) :
    s.Anchored tree.namespaces := by
  unfold parseOlder at h
  dsimp only at h
  split at h
  all_goals
    obtain ⟨isMethod, -, h⟩ := Artifact.bind_eq_ok h
    obtain ⟨lookup, hlookup, h⟩ := Artifact.bind_eq_ok h
    split at h
    · cases h
    · cases h
      exact anchored_source hlookup _

end Mcp

/-- What any format reads against a tree is anchored in the tree. -/
theorem anchored_parse {f : Format} {known : Circumstances} (h : f.parse known text = .ok s) :
    s.Anchored known.tree.namespaces := by
  cases f with
  | tiny => exact .of_lineage_eq (lineage_tiny (mapError_eq_ok h))
  | tiny2 => exact .of_lineage_eq (lineage_tinyTree (mapError_eq_ok h))
  | tsrg2 => exact .of_lineage_eq (lineage_wide (mapError_eq_ok h))
  | enigma | srg | tsrg | retroguard | proguard =>
    exact .of_lineage_eq (lineage_of_bind (mapError_eq_ok h))
  | mcp => exact Mcp.anchored_parse h
  | oldMcp => exact .of_lineage_eq (Mcp.lineage_parseOld h)
  | olderMcp => exact Mcp.anchored_parseOlder h
  | parchment =>
    unfold parse at h
    dsimp only at h
    split at h
    · next source hsource =>
      cases h
      exact .of_lineage_eq (lineage_parchment hsource)
    · cases h

end Format

end JarRemap

/-!
## Records have a name for each namespace

Whatever the columns of a line are, the names of its record are fitted to the namespaces when it is
appended. In the nested tiny format a later line may still change a record, but its comment only.
-/

namespace JarRemap

open Artifact (mapError_eq_ok)

namespace Source

/-- Every record has one name for each namespace. -/
def Even (s : Source) : Prop := ∀ r ∈ s.records, r.names.length = s.width

theorem even_pushAll {s : Source} (h : s.Even) (records : List Record) :
    (s.pushAll records).Even := by
  intro r hr
  rcases List.mem_append.1 hr with hr | hr
  · exact h r hr
  · obtain ⟨r, -, rfl⟩ := List.mem_map.1 hr
    exact Record.length_names_fit s.width r

theorem even_start (key : String) (destinations : List String) :
    (Source.start key destinations).Even := fun _ hr => absurd hr List.not_mem_nil

end Source

namespace Format

variable {text : List Char} {s : Source}

theorem even_of_bind {ε α : Type} {x : Except ε α} {key : String} {destinations : List String}
    {records : α → List Record}
    (h : (x >>= fun a => .ok ((Source.start key destinations).pushAll (records a))) = .ok s) :
    s.Even := by
  obtain ⟨a, -, h⟩ := Artifact.bind_eq_ok h
  cases h
  exact Source.even_pushAll (Source.even_start key destinations) _

theorem even_tiny (h : Tiny.parse text = .ok s) : s.Even := by
  obtain ⟨⟨key, others⟩, -, h⟩ := Artifact.bind_eq_ok h
  exact even_of_bind h

theorem even_wide (h : Tsrg.Wide.parse text = .ok s) : s.Even := by
  obtain ⟨⟨key, others⟩, -, h⟩ := Artifact.bind_eq_ok h
  exact even_of_bind h

theorem even_parchment (h : Parchment.parse? text = some s) : s.Even := by
  obtain ⟨d, -, h⟩ := Option.bind_eq_some_iff.1 h
  obtain ⟨classes, -, h⟩ := Option.bind_eq_some_iff.1 h
  cases h
  exact Source.even_pushAll (Source.even_start _ _) _

namespace TinyTree

/-- The records read so far have a number of names. -/
structure State.Even (width : Nat) (s : State) : Prop where
  width_eq : s.width = width
  full : ∀ r ∈ s.records.toList, r.names.length = width

namespace State.Even

variable {width : Nat} {s s' : State}

/-- What is open has nothing to do with names. -/
theorem reopen (h : s.Even width) (opened : List Open) : Even width { s with opened } :=
  ⟨h.width_eq, h.full⟩

theorem push (h : s.Even width) (r : Record) : (s.push r).Even width where
  width_eq := h.width_eq
  full := by
    intro other hother
    rw [State.push, Array.toList_push] at hother
    rcases List.mem_append.1 hother with hother | hother
    · exact h.full other hother
    · rw [List.mem_singleton.1 hother, Record.length_names_fit]
      exact h.width_eq

theorem comment (h : s.Even width) (index : Nat) (text : List Char) :
    (s.comment index text).Even width where
  width_eq := h.width_eq
  full := by
    intro other hother
    rw [State.comment, Array.toList_modify] at hother
    obtain ⟨i, hi, rfl⟩ := List.getElem_of_mem hother
    rw [List.length_modify] at hi
    have hnames := h.full _ (List.getElem_mem hi)
    rw [List.getElem_modify]
    split
    · exact hnames
    · exact hnames

theorem entry (h : s.Even width) {kind : String} {parts : List (List Char)} {parent : Option Record}
    (hentry : entry s kind parts parent = .ok s') : s'.Even width := by
  obtain ⟨r, rfl⟩ | rfl := entry_eq_ok hentry
  · exact h.push r
  · exact h.reopen _

/-- No line takes a name away. -/
theorem step (h : s.Even width) {line : List Char} (hstep : step s line = .ok s') :
    s'.Even width := by
  unfold TinyTree.step at hstep
  split at hstep
  · exact Except.ok.inj hstep ▸ h
  dsimp only at hstep
  split at hstep
  · cases hstep
  have houter := h.reopen (s.opened.take (line.takeWhile (· = '\t')).length)
  split at hstep
  · split at hstep
    · exact Except.ok.inj hstep ▸ houter
    · cases hstep
  · split at hstep
    · exact Except.ok.inj hstep ▸ houter.comment _ _
    · exact houter.entry hstep
  · exact houter.entry hstep

theorem foldLines {lines : List (Nat × List Char)} (h : s.Even width)
    (hlines : foldLines TinyTree.step s lines = .ok s') : s'.Even width := by
  induction lines generalizing s with
  | nil => exact Except.ok.inj hlines ▸ h
  | cons line lines ih =>
    obtain ⟨next, hnext, hlines⟩ := Artifact.bind_eq_ok hlines
    exact ih (h.step (mapError_eq_ok hnext)) hlines

end State.Even

theorem even_parse (h : parse text = .ok s) : s.Even := by
  obtain ⟨⟨key, others⟩, -, h⟩ := Artifact.bind_eq_ok h
  obtain ⟨state, hstate, h⟩ := Artifact.bind_eq_ok h
  cases h
  have hstart : ∀ escaped width, State.Even width ⟨escaped, width, #[], []⟩ :=
    fun _ _ => ⟨rfl, fun _ hr => absurd hr List.not_mem_nil⟩
  exact (State.Even.foldLines (hstart _ _) hstate).full

end TinyTree

namespace Mcp

variable {file : String} {side : Side} {tree : MappingTree}

theorem even_source (lookup : Lookup) (records : List Record) : (lookup.source records).Even :=
  Source.even_pushAll (fun _ hr => absurd hr List.not_mem_nil) records

theorem even_parseOld (h : parseOld file side text = .ok s) : s.Even := by
  unfold parseOld at h
  dsimp only at h
  split at h
  · exact even_of_bind h
  · exact even_of_bind h
  · exact even_of_bind h
  · cases h

theorem even_parse (h : parse file side tree text = .ok s) : s.Even := by
  obtain ⟨lookup, -, h⟩ := Artifact.bind_eq_ok h
  dsimp only at h
  split at h
  · obtain ⟨rows, -, h⟩ := Artifact.bind_eq_ok h
    cases h
    exact even_source lookup _
  · obtain ⟨rows, -, h⟩ := Artifact.bind_eq_ok h
    cases h
    exact even_source lookup _
  · obtain ⟨rows, -, h⟩ := Artifact.bind_eq_ok h
    cases h
    exact even_source lookup _
  · cases h

theorem even_parseOlder (h : parseOlder file side tree text = .ok s) : s.Even := by
  unfold parseOlder at h
  dsimp only at h
  split at h
  all_goals
    obtain ⟨isMethod, -, h⟩ := Artifact.bind_eq_ok h
    obtain ⟨lookup, -, h⟩ := Artifact.bind_eq_ok h
    split at h
    · cases h
    · cases h
      exact even_source lookup _

end Mcp

/-- What any format reads has one name for each namespace in every record. -/
theorem even_parse {f : Format} {known : Circumstances} (h : f.parse known text = .ok s) :
    s.Even := by
  cases f with
  | tiny => exact even_tiny (mapError_eq_ok h)
  | tiny2 => exact TinyTree.even_parse (mapError_eq_ok h)
  | tsrg2 => exact even_wide (mapError_eq_ok h)
  | enigma | srg | tsrg | retroguard | proguard => exact even_of_bind (mapError_eq_ok h)
  | mcp => exact Mcp.even_parse h
  | oldMcp => exact Mcp.even_parseOld h
  | olderMcp => exact Mcp.even_parseOlder h
  | parchment =>
    unfold parse at h
    dsimp only at h
    split at h
    · next source hsource =>
      cases h
      exact even_parchment hsource
    · cases h

end Format

end JarRemap
