import JarRemap.Proofs.Builder.Annotations
import JarRemap.Proofs.Format.Lineage
import JarRemap.Proofs.Merge.Single

/-!
# Exported names and their members

A row of an exported table goes by a searge name. It becomes one record for each member of that
name, keyed by the source names of the class and the member; the merge looks the member up once
more, by that key. In a tree whose classes and members are told apart, the second look finds what
the first one found. So a member gets the name of the last row that counts and names it, and nothing
else in the tree changes.
-/

namespace JarRemap.Format.Mcp

/-- The table that lists the members of a kind. -/
def tableOf : MemberKind → String
  | .field => "fields.csv"
  | .method => "methods.csv"

/-- The rows for a searge name that count when a side is read. -/
def rowsFor (side : Side) (rows : List MemberRow) (searge : String) : List MemberRow :=
  rows.filter fun row => side.accepts row.side && String.ofList row.searge = searge

/-- What the last row says in a cell, of those that say something there. -/
def lastOf (cell : MemberRow → List Char) (rows : List MemberRow) : Option String :=
  rows.reverse.findSome? fun row => nameOrNone (cell row)

section Columns

variable (searge new : Nat) (side : Side) (rows : List MemberRow)

/-- The name that rows give to a member, by its searge name. -/
def nameFor (names : Names) : Option String :=
  (names.get? searge).bind fun name => lastOf (·.name) (rowsFor side rows name)

/-- The comment that rows give to a member, by its searge name. -/
def commentFor (names : Names) : Option String :=
  (names.get? searge).bind fun name => lastOf (·.comment) (rowsFor side rows name)

/-- The names of a member, with the name that rows give it in a column of its own. -/
def named (names : Names) : Names :=
  (nameFor searge side rows names).elim names (names.set new)

variable {searge new side rows}

theorem get?_named {names : Names} (h : names.Within new) (column : Nat) :
    (named searge new side rows names).get? column =
      if column = new then nameFor searge side rows names else names.get? column := by
  unfold named
  cases nameFor searge side rows names with
  | none =>
    split
    · next hcolumn => exact h column (Nat.le_of_eq hcolumn.symm)
    · rfl
  | some name => exact Names.get?_set names new column name

end Columns

/-- The record of a row for a member of its searge name. -/
def MemberRow.recordFor (kind : MemberKind) (c : ClassMapping) (m : MemberMapping)
    (row : MemberRow) : Record :=
  ⟨kind.element c.names.source m.desc, [some m.names.source, nameOrNone row.name],
    nameOrNone row.comment⟩

/-- The members of a class that a row names. -/
def MemberRow.membersIn (column : Nat) (kind : MemberKind) (c : ClassMapping) (row : MemberRow) :
    List MemberMapping :=
  (c.members kind).filter fun m => m.names.get? column = some (String.ofList row.searge)

/-- The records of a table, row by row, class by class. -/
def recordsOf (column : Nat) (side : Side) (kind : MemberKind) (rows : List MemberRow)
    (classes : List ClassMapping) : List Record :=
  (rows.filter fun row => side.accepts row.side).flatMap fun row =>
    classes.flatMap fun c => (row.membersIn column kind c).map fun m => row.recordFor kind c m

theorem Lookup.name_eq (l : Lookup) (kind : MemberKind) (row : MemberRow) :
    l.name (kind = .method) row.searge row.name (nameOrNone row.comment) =
      l.tree.classes.values.flatMap fun c =>
        (row.membersIn l.column kind c).map fun m => row.recordFor kind c m := by
  have hsome : ∀ searge : Option String, ∀ name,
      ((searge.map fun s => decide (s = name)).getD false) = decide (searge = some name) := by
    intro searge name
    cases searge <;> simp
  cases kind with
  | field =>
    simp only [name, fields, MemberRow.membersIn, ClassMapping.members, List.map_flatMap,
      List.filter_map, List.map_map]
    rfl
  | method =>
    simp only [name, methods, MemberRow.membersIn, ClassMapping.members, List.map_flatMap,
      List.filter_map, List.map_map, hsome]
    rfl

section Rows

variable {t : MappingTree} {kind : MemberKind} {file : String} {side : Side} {text : List Char}
  {rows : List MemberRow}

/-- What is read from a table, keyed by the source namespace of the tree. -/
def sourceOf (t : MappingTree) (side : Side) (kind : MemberKind) (rows : List MemberRow) :
    Source where
  key := t.namespaces.headD Namespace.official
  destinations := [Namespace.mcp]
  lineage := [Namespace.searge, Namespace.mcp]
  records := recordsOf (t.namespaces.idxOf Namespace.searge) side kind rows t.classes.values

theorem mem_recordsOf {column : Nat} {classes : List ClassMapping} {r : Record} :
    r ∈ recordsOf column side kind rows classes ↔
      ∃ row ∈ rows, side.accepts row.side ∧ ∃ c ∈ classes, ∃ m ∈ row.membersIn column kind c,
        row.recordFor kind c m = r := by
  simp only [recordsOf, List.mem_flatMap, List.mem_filter, List.mem_map, and_assoc]

theorem parse_eq (hsearge : Namespace.searge ∈ t.namespaces) (hfile : fileName file = tableOf kind)
    (hrows : Table.read .mcp MemberRow.read? text = .ok rows) :
    parse file side t text = .ok (sourceOf t side kind rows) := by
  have hcolumn : Lookup.ofTree .mcp t = .ok ⟨t, t.namespaces.idxOf Namespace.searge⟩ := by
    rw [Lookup.ofTree, MappingTree.column?, MappingTree.idxOf?_of_mem hsearge]
  have hfit : ∀ r ∈ recordsOf (t.namespaces.idxOf Namespace.searge) side kind rows
      t.classes.values, r.fit 2 = r := by
    intro r hr
    obtain ⟨row, -, -, c, -, m, -, rfl⟩ := mem_recordsOf.1 hr
    exact Record.fit_of_length rfl
  have hsource : Lookup.source ⟨t, t.namespaces.idxOf Namespace.searge⟩
      (recordsOf (t.namespaces.idxOf Namespace.searge) side kind rows t.classes.values) =
        sourceOf t side kind rows := by
    have hrecords := (List.map_congr_left hfit).trans (List.map_id _)
    simp only [Lookup.source, Source.pushAll, Source.start, Source.width, sourceOf,
      List.nil_append]
    exact congrArg (Source.mk _ _ _) hrecords
  have hmembers : ∀ row : MemberRow, Lookup.name ⟨t, t.namespaces.idxOf Namespace.searge⟩
      (kind = .method) row.searge row.name (nameOrNone row.comment) = t.classes.values.flatMap
        fun c => (row.membersIn (t.namespaces.idxOf Namespace.searge) kind c).map
          fun m => row.recordFor kind c m :=
    Lookup.name_eq ⟨t, t.namespaces.idxOf Namespace.searge⟩ kind
  rw [← hsource, recordsOf]
  simp only [← hmembers]
  cases kind with
  | field =>
    simp only [parse, hcolumn, hfile, tableOf, hrows]
    rfl
  | method =>
    simp only [parse, hcolumn, hfile, tableOf, hrows]
    rfl

theorem owner?_recordFor (c : ClassMapping) (m : MemberMapping) (row : MemberRow) :
    (row.recordFor kind c m).owner? .first = some c.names.source := by
  cases kind <;> rfl

theorem label_recordFor (c : ClassMapping) {m : MemberMapping} (hm : (m.names.get? 0).isSome)
    (row : MemberRow) : (row.recordFor kind c m).label = m.label := by
  have hkey : some m.names.source = m.names.get? 0 := by
    obtain ⟨name, hname⟩ := Option.isSome_iff_exists.1 hm
    rw [Names.source, hname]
    rfl
  refine Prod.ext hkey ?_
  cases kind <;> rfl

/-- The records of the members of one class, row by row. -/
def classRecords (column : Nat) (side : Side) (kind : MemberKind) (rows : List MemberRow)
    (c : ClassMapping) : List Record :=
  (rows.filter fun row => side.accepts row.side).flatMap fun row =>
    (row.membersIn column kind c).map fun m => row.recordFor kind c m

/-- The records that go to a class are those of its own members. -/
theorem filter_owner?_recordsOf (hkeyed : t.Keyed) (column : Nat) {name : String}
    {c : ClassMapping} (hc : (name, c) ∈ t.classes.entries) :
    (recordsOf column side kind rows t.classes.values).filter (·.owner? .first = some name) =
      classRecords column side kind rows c := by
  have hclass : c ∈ t.classes.values := List.mem_map.2 ⟨_, hc, rfl⟩
  have hname : c.names.source = name := by
    rw [Names.source, hkeyed name c (OrderedMap.get?_eq_some_iff.2 hc), Option.getD_some]
  subst hname
  have hnodup : (t.classes.values.map fun c => some c.names.source).Nodup := by
    have hsome := hkeyed.nodup_sources.map (Option.some_injective String)
    rwa [List.map_map] at hsome
  rw [recordsOf, classRecords, List.filter_flatMap]
  refine List.flatMap_congr fun row _ => ?_
  refine filter_flatMap_label (fun c : ClassMapping => some c.names.source) hnodup ?_ hclass
  intro c _ r hr
  obtain ⟨m, -, rfl⟩ := List.mem_map.1 hr
  exact owner?_recordFor c m row

/-- The records that go to a member are those of the rows for its searge name. -/
theorem filter_label_classRecords {c : ClassMapping} (column : Nat) (hsourced : c.Sourced)
    (hapart : (c.members kind).Pairwise fun a b => ¬ a.Clashes b) {m : MemberMapping}
    (hm : m ∈ c.members kind) :
    (classRecords column side kind rows c).filter (·.label = m.label) =
      ((rows.filter fun row => side.accepts row.side).filter fun row =>
        m.names.get? column = some (String.ofList row.searge)).map (·.recordFor kind c m) := by
  rw [classRecords, List.filter_flatMap, map_filter_eq_flatMap]
  refine List.flatMap_congr fun row _ => ?_
  rw [MemberRow.membersIn, map_filter_eq_flatMap]
  refine filter_flatMap_label MemberMapping.label (MemberMapping.nodup_label hapart) ?_ hm
  intro m' hm' r hr
  split at hr
  · rw [List.mem_singleton.1 hr]
    exact label_recordFor c (hsourced.members kind m' hm') row
  · cases hr

/-- Of the rows of a member, the last one with a name counts. -/
theorem writeAll_recordFor (c : ClassMapping) (m : MemberMapping) (new : Nat) (names : Names) :
    Record.writeAll [0, new] (rows.map (·.recordFor kind c m)) names =
      (lastOf (·.name) rows).elim names (names.set new) := by
  have hwrite : ∀ (names : Names) (row : MemberRow),
      names.write [0, new] (row.recordFor kind c m) 1 =
        (nameOrNone row.name).elim names (names.set new) := by
    intro names row
    rw [Names.write, MemberRow.recordFor]
    cases nameOrNone row.name <;> rfl
  rw [Record.writeAll, List.foldl_map]
  simp only [hwrite]
  exact foldl_overwrite _ (fun names => names.set_set new) _ rows names

theorem commentAll_recordFor (c : ClassMapping) (m : MemberMapping) (comment : Option String) :
    Record.commentAll (rows.map (·.recordFor kind c m)) comment =
      (lastOf (·.comment) rows).or comment := by
  have hover : ∀ (comment : Option String) (row : MemberRow),
      (row.recordFor kind c m).commentOver comment =
        (nameOrNone row.comment).elim comment some := by
    intro comment row
    rw [Record.commentOver, MemberRow.recordFor]
    cases nameOrNone row.comment <;> rfl
  rw [Record.commentAll, List.foldl_map]
  simp only [hover]
  rw [foldl_overwrite (fun _ b => some b) (fun _ _ _ => rfl), ← lastOf]
  cases lastOf (·.comment) rows <;> rfl

/-- The rows of a member are those for its searge name; without one it has none. -/
theorem filter_rows (names : Names) (column : Nat) :
    ((rows.filter fun row => side.accepts row.side).filter fun row =>
      names.get? column = some (String.ofList row.searge)) =
        (names.get? column).elim [] (rowsFor side rows) := by
  rw [List.filter_filter]
  cases names.get? column with
  | none => simp
  | some searge =>
    refine List.filter_congr fun row _ => ?_
    rw [Bool.and_comm]
    congr 1
    simp only [Option.some.injEq, eq_comm]

/-- A class behind all records of a table. -/
theorem foldl_change_classRecords {c : ClassMapping} (column : Nat) {new : Nat} (hnew : 0 < new)
    (hsourced : c.Sourced) (hapart : (c.members kind).Pairwise fun a b => ¬ a.Clashes b) :
    (classRecords column side kind rows c).foldl (fun c r => r.change .first [0, new] c) c =
      c.editMembers kind (fun m => named column new side rows m.names)
        (fun m comment => (commentFor column side rows m.names).or comment) := by
  have hlabels : ∀ r ∈ classRecords column side kind rows c, r.Labels kind (c.members kind) := by
    intro r hr
    simp only [classRecords, List.mem_flatMap, List.mem_map] at hr
    obtain ⟨row, -, m, hm, rfl⟩ := hr
    have hmember : m ∈ c.members kind := (List.mem_filter.1 hm).1
    have hlabel : (row.recordFor kind c m).label = m.label :=
      label_recordFor c (hsourced.members kind m hmember) row
    refine ⟨⟨c.names.source, ?_⟩, rfl, ?_⟩
    · rw [hlabel]
      rfl
    · rw [hlabel]
      exact List.mem_map_of_mem hmember
  have hzero : 0 ∉ [0, new].drop 1 := by simpa using Nat.ne_of_lt hnew
  rw [ClassMapping.foldl_change_eq_editMembers hzero hapart hlabels]
  refine ClassMapping.editMembers_congr fun m hm => ?_
  simp only [filter_label_classRecords column hsourced hapart hm, filter_rows]
  constructor
  · rw [writeAll_recordFor, named, nameFor]
    cases m.names.get? column <;> rfl
  · funext comment
    rw [commentAll_recordFor, commentFor]
    cases m.names.get? column <;> rfl

theorem headD_mem (hsearge : Namespace.searge ∈ t.namespaces) :
    t.namespaces.headD Namespace.official ∈ t.namespaces ∧
      t.namespaces.idxOf (t.namespaces.headD Namespace.official) = 0 := by
  cases hnames : t.namespaces with
  | nil =>
    rw [hnames] at hsearge
    cases hsearge
  | cons first rest => exact ⟨List.mem_cons_self, by simp⟩

/-- The tree behind a table. -/
def treeAfter (t : MappingTree) (side : Side) (kind : MemberKind) (rows : List MemberRow) :
    MappingTree :=
  { t with
    namespaces := t.namespaces ++ [Namespace.mcp]
    classes := (sourceOf t side kind rows).records.foldl
      (MappingTree.apply .first [0, t.namespaces.length]) t.classes }

theorem merge_sourceOf (hsearge : Namespace.searge ∈ t.namespaces)
    (hmcp : Namespace.mcp ∉ t.namespaces) :
    t.merge (sourceOf t side kind rows) = .ok (treeAfter t side kind rows) := by
  obtain ⟨hbase, hzero⟩ := headD_mem hsearge
  have hmerge := MappingTree.merge_layer_eq (s := sourceOf t side kind rows) hbase rfl rfl hmcp
  rw [hzero] at hmerge
  exact hmerge

/-- Each class of the tree is changed in its members of the kind, by the rows for their searge
names. -/
theorem entries_treeAfter (side : Side) (rows : List MemberRow) (hreachable : t.Reachable)
    (hkeyed : t.Keyed)
    (hapart : ∀ c ∈ t.classes.values, (c.members kind).Pairwise fun a b => ¬ a.Clashes b)
    (hsearge : Namespace.searge ∈ t.namespaces) :
    (treeAfter t side kind rows).classes.entries = t.classes.entries.map fun e =>
      (e.1, e.2.editMembers kind
        (fun m => named (t.namespaces.idxOf Namespace.searge) t.namespaces.length side rows m.names)
        (fun m comment =>
          (commentFor (t.namespaces.idxOf Namespace.searge) side rows m.names).or comment)) := by
  have hthere : ∀ r ∈ (sourceOf t side kind rows).records, ∀ name,
      r.owner? .first = some name → (t.classes.get? name).isSome := by
    intro r hr name howner
    obtain ⟨row, -, -, c, hc, m, -, rfl⟩ := mem_recordsOf.1 hr
    rw [owner?_recordFor] at howner
    cases howner
    exact Option.isSome_iff_exists.2 ⟨c, hkeyed.class?_source hc⟩
  have hwidth : 0 < t.namespaces.length := List.length_pos_of_mem hsearge
  rw [treeAfter, MappingTree.entries_foldl_apply hthere]
  refine List.map_congr_left fun e he => ?_
  have hsourced := hreachable.sourced e.1 e.2 (OrderedMap.get?_eq_some_iff.2 he)
  rw [sourceOf, filter_owner?_recordsOf hkeyed _ he,
    foldl_change_classRecords _ hwidth hsourced (hapart e.2 (List.mem_map_of_mem he))]

/-- A tree behind a table that names members of a kind. Classes and members are those that were
there; a member differs by a name in the new column and by its comment. -/
structure NamedBy (t : MappingTree) (side : Side) (kind : MemberKind) (rows : List MemberRow)
    (t' : MappingTree) : Prop where
  namespaces : t'.namespaces = t.namespaces ++ [Namespace.mcp]
  readable : t'.named = t.named
  graph : t'.graph = t.graph
  classes : t'.classes.entries = t.classes.entries.map fun e =>
    (e.1, e.2.editMembers kind
      (fun m => named (t.namespaces.idxOf Namespace.searge) t.namespaces.length side rows m.names)
      (fun m comment =>
        (commentFor (t.namespaces.idxOf Namespace.searge) side rows m.names).or comment))
  /-- A member gets the name of the last row for its searge name that counts and has a name, and
  none without such a row; the other names stay. -/
  names : ∀ c ∈ t.classes.values, ∀ m ∈ c.members kind, ∀ column,
    (named (t.namespaces.idxOf Namespace.searge) t.namespaces.length side rows m.names).get?
      column =
        if column = t.namespaces.length then
          (m.names.get? (t.namespaces.idxOf Namespace.searge)).bind fun searge =>
            lastOf (·.name) (rowsFor side rows searge)
        else m.names.get? column
  /-- Members of one searge name get one name. -/
  shared : ∀ c ∈ t'.classes.values, ∀ m ∈ c.members kind,
    ∀ c' ∈ t'.classes.values, ∀ m' ∈ c'.members kind,
      m.names.get? (t.namespaces.idxOf Namespace.searge) =
          m'.names.get? (t.namespaces.idxOf Namespace.searge) →
        m.names.get? t.namespaces.length = m'.names.get? t.namespaces.length

theorem namedBy_treeAfter (hreachable : t.Reachable) (hkeyed : t.Keyed)
    (hapart : ∀ c ∈ t.classes.values, (c.members kind).Pairwise fun a b => ¬ a.Clashes b)
    (hsearge : Namespace.searge ∈ t.namespaces) :
    NamedBy t side kind rows (treeAfter t side kind rows) := by
  have hentries := entries_treeAfter side rows hreachable hkeyed hapart hsearge
  have hnames : ∀ c ∈ t.classes.values, ∀ m ∈ c.members kind, ∀ column,
      (named (t.namespaces.idxOf Namespace.searge) t.namespaces.length side rows m.names).get?
        column = if column = t.namespaces.length then
          nameFor (t.namespaces.idxOf Namespace.searge) side rows m.names
        else m.names.get? column := by
    intro c hc m hm column
    obtain ⟨name, hname⟩ := OrderedMap.mem_values_iff.1 hc
    have hwithin := (hreachable.bounded.within name c hname).members kind m hm
    exact get?_named hwithin column
  -- the new name is told by the searge name, which stays
  have hnew : ∀ c ∈ (treeAfter t side kind rows).classes.values, ∀ m ∈ c.members kind,
      m.names.get? t.namespaces.length =
        nameFor (t.namespaces.idxOf Namespace.searge) side rows m.names := by
    intro c hc m hm
    obtain ⟨e, he, rfl⟩ := List.mem_map.1 hc
    rw [hentries] at he
    obtain ⟨before, hbefore, rfl⟩ := List.mem_map.1 he
    rw [ClassMapping.members_editMembers] at hm
    obtain ⟨old, hold, rfl⟩ := List.mem_map.1 hm
    have hget := hnames before.2 (List.mem_map_of_mem hbefore) old hold
    have hne := Nat.ne_of_lt (List.idxOf_lt_length_of_mem hsearge)
    rw [hget, if_pos rfl]
    unfold nameFor
    rw [hget, if_neg hne]
  refine ⟨rfl, rfl, rfl, hentries, hnames, ?_⟩
  intro c hc m hm c' hc' m' hm' hsame
  rw [hnew c hc m hm, hnew c' hc' m' hm', nameFor, nameFor, hsame]

/-- Rows of an exported table, as they are read from any text, name exactly the members of their
searge names. In a tree with searge names and without names of its own in the new namespace, where
every class is stored under its source name and the members of a kind are told apart in each class,
the table is read and merged, and each member has the name of the last row for its searge name that
counts on the side and has a name; nothing but this name and the comment of the member is new. -/
theorem rows_name_exactly_their_members (hreachable : t.Reachable) (hkeyed : t.Keyed)
    (hapart : ∀ c ∈ t.classes.values, (c.members kind).Pairwise fun a b => ¬ a.Clashes b)
    (hsearge : Namespace.searge ∈ t.namespaces) (hmcp : Namespace.mcp ∉ t.namespaces)
    (hfile : fileName file = tableOf kind)
    (hrows : Table.read .mcp MemberRow.read? text = .ok rows) :
    ∃ source t', Format.mcp.parse ⟨file, side, t⟩ text = .ok source ∧
      t.merge (source.adapt { source := t.namespaces.headD Namespace.official }) = .ok t' ∧
      NamedBy t side kind rows t' := by
  refine ⟨sourceOf t side kind rows, treeAfter t side kind rows, parse_eq hsearge hfile hrows, ?_,
    namedBy_treeAfter hreachable hkeyed hapart hsearge⟩
  have hadapt := (sourceOf t side kind rows).adapt_key
  exact hadapt.symm ▸ merge_sourceOf hsearge hmcp

end Rows

namespace Sample

/-- Two methods of one name, told apart by their descriptors, and one without a descriptor, which
shares its searge name with the first. -/
def overloads : Source where
  key := "official"
  destinations := ["searge"]
  lineage := ["official", "searge"]
  records := [
    ⟨.type, [some "a", some "A"], none⟩,
    ⟨.method "a" (some "()V"), [some "m", some "func_1_m"], none⟩,
    ⟨.method "a" (some "(I)V"), [some "m", some "func_2_m"], none⟩,
    ⟨.method "b" none, [some "n", some "func_1_m"], none⟩]

def tree : MappingTree where
  namespaces := ["official", "searge"]
  classes := ⟨[
    ("a", { names := [some "a", some "A"], methods := [
      { names := [some "m", some "func_1_m"], desc := some "()V" },
      { names := [some "m", some "func_2_m"], desc := some "(I)V" }] }),
    ("b", { names := [some "b"], methods := [{ names := [some "n", some "func_1_m"] }] })],
    by decide⟩

theorem merge_overloads : ({} : MappingTree).merge overloads = .ok tree := by rfl

theorem reachable_tree : tree.Reachable := .merge .empty merge_overloads

theorem wellFormed_tree : tree.WellFormed := by
  refine MappingTree.WellFormed.merge ⟨Builder.keyed_empty, ?_⟩ rfl merge_overloads
  intro name c hc
  cases hc

/-- A later row names again, one without a name does not, and one is for the other side. -/
def table : List Char :=
  ("searge,name,side,desc\nfunc_1_m,tick,2,Ticks\nfunc_2_m,,2,Runs\n" ++
    "func_1_m,run,0,\nfunc_2_m,serve,1,\n").toList

def rows : List MemberRow := [
  ⟨"func_1_m".toList, "tick".toList, 2, "Ticks".toList⟩,
  ⟨"func_2_m".toList, [], 2, "Runs".toList⟩,
  ⟨"func_1_m".toList, "run".toList, 0, []⟩,
  ⟨"func_2_m".toList, "serve".toList, 1, []⟩]

theorem read_table : Table.read .mcp MemberRow.read? table = .ok rows := by
  rfl

/-- The names and comments of the methods of all classes. -/
def methods (t : MappingTree) : List (Names × Option String) :=
  t.classes.values.flatMap fun c => c.methods.map fun m => (m.names, m.comment)

end Sample

open Sample in
/-- Two methods share their searge name and get one name; the third is named by no row that counts,
but gets a comment. -/
theorem rows_name_exactly_their_members_overloads :
    tree.Reachable ∧ tree.Keyed ∧
      (∀ c ∈ tree.classes.values, (c.members .method).Pairwise fun a b => ¬ a.Clashes b) ∧
      Table.read .mcp MemberRow.read? table = .ok rows ∧
      ∃ source t', Format.mcp.parse ⟨"mcp/methods.csv", .client, tree⟩ table = .ok source ∧
        tree.merge (source.adapt { source := "official" }) = .ok t' ∧
        methods t' = [
          ([some "m", some "func_1_m", some "run"], some "Ticks"),
          ([some "m", some "func_2_m"], some "Runs"),
          ([some "n", some "func_1_m", some "run"], some "Ticks")] := by
  have hapart : ∀ c ∈ tree.classes.values,
      (c.members .method).Pairwise fun a b => ¬ a.Clashes b := by
    intro c hc
    obtain ⟨name, hname⟩ := OrderedMap.mem_values_iff.1 hc
    exact (wellFormed_tree.unique name c hname).members .method
  have hnamed : ∃ source t', Format.mcp.parse ⟨"mcp/methods.csv", .client, tree⟩ table =
      .ok source ∧ tree.merge (source.adapt { source := "official" }) = .ok t' ∧
        NamedBy tree .client .method rows t' :=
    rows_name_exactly_their_members reachable_tree wellFormed_tree.keyed hapart (by decide)
      (by decide) rfl read_table
  obtain ⟨source, t', hparse, hmerge, hnamed⟩ := hnamed
  refine ⟨reachable_tree, wellFormed_tree.keyed, hapart, read_table, source, t', hparse, hmerge, ?_⟩
  rw [methods, OrderedMap.values, hnamed.classes]
  decide

end JarRemap.Format.Mcp
