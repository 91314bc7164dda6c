import JarRemap.Proofs.Builder.Bounds
import JarRemap.Proofs.Builder.SourceColumn
import JarRemap.Proofs.Descriptor.Compose
import JarRemap.Proofs.Dictionary.Lookup

/-!
# Merging one layer onto another

A source that is keyed by a destination of the tree and adds one new namespace. If the names of the
key namespace tell the classes and members of the tree apart, every record finds its element, by a
way from the key namespace to the source namespace and back, and writes its name in the new column.
-/

namespace JarRemap

namespace Record

/-- The class that a record names, in the namespace of its key. -/
def classKey? (r : Record) : Option String := if r.element = .type then r.key? else none

end Record

namespace MappingTree

/-- The names of the classes in a column, by their source names. -/
def inColumn (t : MappingTree) (column : Nat) : ClassMap :=
  fun name => (t.class? name).bind (·.names.get? column)

/-- Some class bears a name in a column. -/
def HasClass (t : MappingTree) (column : Nat) (key : String) : Prop :=
  ∃ name c, t.class? name = some c ∧ c.names.get? column = some key

/-- Some class has a member of a kind that bears a name, and a descriptor, in a column. -/
def HasMember (t : MappingTree) (column : Nat) (kind : MemberKind) (owner key desc : String) :
    Prop :=
  ∃ name c, t.class? name = some c ∧ c.names.get? column = some owner ∧
    ∃ m ∈ c.members kind, m.names.get? column = some key ∧
      m.desc.map (Descriptor.rename (t.inColumn column)) = some desc

/-- Everything in a tree has a name in a column, and these names tell everything apart. -/
structure Complete (t : MappingTree) (column : Nat) : Prop where
  keyed : t.Keyed
  /-- Every class has a name in the column, without a semicolon, as has its source name. -/
  named : ∀ name c, t.class? name = some c →
    ';' ∉ name.toList ∧ ∃ key, c.names.get? column = some key ∧ ';' ∉ key.toList
  /-- No two classes share a name in the column. -/
  apart : ∀ name c name' c', t.class? name = some c → t.class? name' = some c' →
    c.names.get? column = c'.names.get? column → name = name'
  /-- Every member has a name in the column. -/
  membersNamed : ∀ name c, t.class? name = some c →
    ∀ kind, ∀ m ∈ c.members kind, (m.names.get? column).isSome
  /-- Every member has a descriptor, and no two of a class share name and descriptor. -/
  membersApart : ∀ name c, t.class? name = some c → c.Distinct column
  /-- A class that a descriptor mentions is one of the tree, or bears no name of the column. -/
  mentions : ∀ name c, t.class? name = some c → ∀ kind, ∀ m ∈ c.members kind,
    ∀ desc, m.desc = some desc → ∀ mentioned ∈ Descriptor.classNames desc,
      t.HasClass column mentioned → (t.class? mentioned).isSome

end MappingTree

/-- A source that is keyed by a namespace of a tree and gives each element of the tree at most one
name in a new namespace. -/
structure Source.Layers (s : Source) (t : MappingTree) (base new : String) : Prop where
  keyed : s.key = base
  destinations : s.destinations = [new]
  isNew : new ∉ t.namespaces
  classesOnce : (s.records.filterMap (·.classKey?)).Nodup
  membersOnce : ∀ kind, (s.records.filterMap (·.memberKey? kind)).Nodup
  described : ∀ r ∈ s.records, r.Described
  /-- A class that a descriptor mentions bears a name of the base, or is none of the tree. -/
  mentions : ∀ r ∈ s.records, ∀ kind owner name desc,
    r.memberKey? kind = some ⟨owner, name, some desc⟩ →
      ∀ mentioned ∈ Descriptor.classNames desc, (t.class? mentioned).isSome →
        t.HasClass (t.namespaces.idxOf base) mentioned

namespace MappingTree

variable {t : MappingTree} {column : Nat}

namespace Complete

/-- A class is found by its name in the column. -/
theorem sourceNames_iff (h : t.Complete column) {key name : String} :
    (t.sourceNames column).get? key = some name ↔
      ∃ c, t.class? name = some c ∧ c.names.get? column = some key := by
  have hmem : ∀ found, (key, found) ∈ (t.classes.values.filterMap fun c =>
      (c.names.get? column).map fun name => (name, c.names.source)) ↔
        ∃ c, t.class? found = some c ∧ c.names.get? column = some key := by
    intro found
    rw [List.mem_filterMap]
    constructor
    · rintro ⟨c, hc, hpair⟩
      obtain ⟨key', hkey', hsame⟩ := Option.map_eq_some_iff.1 hpair
      cases hsame
      exact ⟨c, h.keyed.class?_source hc, hkey'⟩
    · rintro ⟨c, hc, hkey⟩
      refine ⟨c, OrderedMap.mem_values_iff.2 ⟨found, hc⟩, ?_⟩
      rw [hkey, Names.source, h.keyed found c hc]
      rfl
  constructor
  · exact fun hfound => (hmem name).1 (OrderedMap.mem_of_get?_ofList hfound)
  · intro hname
    refine OrderedMap.get?_ofList_of_mem ((hmem name).2 hname) fun other hother => ?_
    obtain ⟨c, hc, hkey⟩ := hname
    obtain ⟨c', hc', hkey'⟩ := (hmem other).1 hother
    exact h.apart other c' name c hc' hc (hkey'.trans hkey.symm)

theorem inColumn_iff {key name : String} : t.inColumn column name = some key ↔
    ∃ c, t.class? name = some c ∧ c.names.get? column = some key :=
  Option.bind_eq_some_iff

/-- The two ways between source names and names of the column undo each other. -/
theorem sourceNames_iff_inColumn (h : t.Complete column) {key name : String} :
    (t.sourceNames column).get? key = some name ↔ t.inColumn column name = some key := by
  rw [h.sourceNames_iff, inColumn_iff]

theorem unbroken_inColumn (h : t.Complete column) : (t.inColumn column).Unbroken := by
  intro name key hkey
  obtain ⟨c, hc, hkey⟩ := inColumn_iff.1 hkey
  obtain ⟨-, key', hkey', hfree⟩ := h.named name c hc
  rw [hkey] at hkey'
  cases hkey'
  exact hfree

theorem unbroken_sourceNames (h : t.Complete column) :
    ClassMap.Unbroken (t.sourceNames column).get? := by
  intro key name hname
  obtain ⟨c, hc, -⟩ := h.sourceNames_iff.1 hname
  exact (h.named name c hc).1

/-- A descriptor of the tree survives the way to the column and back. -/
theorem rename_sourceNames_inColumn (h : t.Complete column) {name : String} {c : ClassMapping}
    (hc : t.class? name = some c) {kind : MemberKind} {m : MemberMapping}
    (hm : m ∈ c.members kind) {desc : String} (hdesc : m.desc = some desc) :
    Descriptor.rename (t.sourceNames column).get? (Descriptor.rename (t.inColumn column) desc) =
      desc := by
  refine Descriptor.rename_rename_eq_self h.unbroken_inColumn fun mentioned hmentioned => ?_
  cases hkey : t.inColumn column mentioned with
  | some key =>
    simp only [ClassMap.image, hkey, Option.getD_some, h.sourceNames_iff_inColumn.2 hkey]
  | none =>
    simp only [ClassMap.image, hkey, Option.getD_none]
    cases hname : (t.sourceNames column).get? mentioned with
    | none => rfl
    | some other =>
      obtain ⟨c', hc', hkey'⟩ := h.sourceNames_iff.1 hname
      have hclass := h.mentions name c hc kind m hm desc hdesc mentioned hmentioned
        ⟨other, c', hc', hkey'⟩
      obtain ⟨c'', hc''⟩ := Option.isSome_iff_exists.1 hclass
      obtain ⟨-, key'', hkey'', -⟩ := h.named mentioned c'' hc''
      rw [inColumn, hc''] at hkey
      exact absurd (hkey''.symm.trans hkey) (by simp)

/-- A descriptor that mentions no class of the tree by its source name, unless that is a name of the
column as well, survives the way to the source namespace and back. -/
theorem rename_inColumn_sourceNames (h : t.Complete column) {desc : String}
    (hmentions : ∀ mentioned ∈ Descriptor.classNames desc, (t.class? mentioned).isSome →
      t.HasClass column mentioned) :
    Descriptor.rename (t.inColumn column) (Descriptor.rename (t.sourceNames column).get? desc) =
      desc := by
  refine Descriptor.rename_rename_eq_self h.unbroken_sourceNames fun mentioned hmentioned => ?_
  cases hname : (t.sourceNames column).get? mentioned with
  | some name =>
    simp only [ClassMap.image, hname, Option.getD_some, h.sourceNames_iff_inColumn.1 hname]
  | none =>
    simp only [ClassMap.image, hname, Option.getD_none]
    cases hkey : t.inColumn column mentioned with
    | none => rfl
    | some key =>
      obtain ⟨c, hc, -⟩ := inColumn_iff.1 hkey
      obtain ⟨name, c', hc', hkey'⟩ := hmentions mentioned hmentioned (by rw [hc]; rfl)
      exact absurd (hname.symm.trans (h.sourceNames_iff.2 ⟨c', hc', hkey'⟩)) (by simp)

end Complete

end MappingTree

theorem ClassMapping.Within.members {width : Nat} {c : ClassMapping} (h : c.Within width)
    (kind : MemberKind) : ∀ m ∈ c.members kind, m.names.Within width := by
  intro m hm
  cases kind with
  | field =>
    obtain ⟨f, hf, rfl⟩ := List.mem_map.1 hm
    exact h.fields f hf
  | method =>
    obtain ⟨f, hf, rfl⟩ := List.mem_map.1 hm
    exact h.methods f hf

/-- The entries of one key among entries whose keys occur once. -/
theorem filter_eq_toList_find? {α κ : Type} [DecidableEq κ] {key : α → Option κ} {l : List α}
    (h : (l.filterMap key).Nodup) (k : κ) :
    l.filter (fun a => key a = some k) = (l.find? fun a => key a = some k).toList := by
  induction l with
  | nil => rfl
  | cons a l ih =>
    rw [List.filter_cons, List.find?_cons]
    by_cases ha : key a = some k
    · rw [List.filterMap_cons, ha, List.nodup_cons] at h
      have hrest : l.filter (fun a => key a = some k) = [] := by
        rw [List.filter_eq_nil_iff]
        intro b hb hkey
        exact h.1 (List.mem_filterMap.2 ⟨b, hb, of_decide_eq_true hkey⟩)
      simp [ha, hrest]
    · have hnodup : (l.filterMap key).Nodup := by
        rw [List.filterMap_cons] at h
        split at h
        · exact h
        · exact (List.nodup_cons.1 h).2
      simp [ha, ih hnodup]

namespace Source

/-- The new name that a source gives a class. -/
def className? (s : Source) (key : String) : Option String :=
  (s.records.find? fun r => r.classKey? = some key).bind (·.name? 1)

/-- The new name that a source gives a member. -/
def memberName? (s : Source) (kind : MemberKind) (key : MemberKey) : Option String :=
  (s.records.find? fun r => r.memberKey? kind = some key).bind (·.name? 1)

end Source

namespace Names

/-- A record with one destination writes its name into one column. -/
theorem get?_write_layer (names : Names) (r : Record) (column new other : Nat) :
    (names.write [column, new] r 1).get? other =
      if other = new then (r.name? 1).or (names.get? new) else names.get? other := by
  split
  · next h =>
    subst h
    rw [get?_write]
    congr 1
    rcases hnames : r.names with _ | ⟨first, _ | ⟨second, rest⟩⟩
    · simp [lastFor, Record.name?, hnames]
    · simp [lastFor, Record.name?, hnames]
    · simp [lastFor, Record.name?, hnames]
  · next h => exact get?_write_of_not_mem (by simpa using h) names r

/-- Of the records of one element there is one at most. -/
theorem get?_foldl_write_layer (names : Names) (column new other : Nat) (found : Option Record) :
    (found.toList.foldl (fun names r => write names [column, new] r 1) names).get? other =
      if other = new then (found.bind (·.name? 1)).or (names.get? new) else names.get? other := by
  cases found with
  | none =>
    split
    · next h =>
      rw [h]
      rfl
    · rfl
  | some r => exact get?_write_layer names r column new other

end Names

namespace MappingTree

variable {t : MappingTree} {s : Source} {base new : String} {column : Nat}

/-- A later form of a class that has the names of a source in a new column. -/
structure Layered (t : MappingTree) (s : Source) (column width : Nat) (c c' : ClassMapping) :
    Prop where
  names : ∀ other, other ≠ width → c'.names.get? other = c.names.get? other
  named : ∀ key, c.names.get? column = some key → c'.names.get? width = s.className? key
  members : ∀ kind, ∃ change : MemberMapping → MemberMapping,
    c'.members kind = (c.members kind).map change ∧
      ∀ m ∈ c.members kind, (change m).desc = m.desc ∧
        (∀ other, other ≠ width → (change m).names.get? other = m.names.get? other) ∧
        ∀ owner key desc, c.names.get? column = some owner → m.names.get? column = some key →
          m.desc.map (Descriptor.rename (t.inColumn column)) = some desc →
            (change m).names.get? width = s.memberName? kind ⟨owner, key, some desc⟩

/-- A source of one new namespace is merged under the columns of its key and of that namespace. -/
theorem merge_layer_eq (hbase : base ∈ t.namespaces) (hkey : s.key = base)
    (hdestinations : s.destinations = [new]) (hnew : new ∉ t.namespaces) :
    t.merge s = .ok { t with
      namespaces := t.namespaces ++ [new]
      classes := s.records.foldl (apply (t.keyView (t.namespaces.idxOf base))
        [t.namespaces.idxOf base, t.namespaces.length]) t.classes } := by
  have hknown : t.known s = t.namespaces := by
    rw [known, if_neg]
    rw [List.isEmpty_iff]
    exact List.ne_nil_of_mem hbase
  have hwith : t.namespacesWith s = t.namespaces ++ [new] := by
    rw [namespacesWith, hknown, Source.namespaces, hkey, hdestinations]
    simp [addAllNew, addNew, hbase, hnew]
  have hcolumns : t.columnsOf s = [t.namespaces.idxOf base, t.namespaces.length] := by
    rw [columnsOf, hwith, Source.namespaces, hkey, hdestinations]
    simp [List.idxOf_append, hbase, hnew]
  rw [merge, hknown, hkey, idxOf?_of_mem hbase, hwith, hcolumns]

theorem creates_keyView (hcolumn : column ≠ 0) : (t.keyView column).creates = false :=
  beq_false_of_ne hcolumn

theorem class?_keyView (hcolumn : column ≠ 0) (key : String) :
    (t.keyView column).class? key = (t.sourceNames column).get? key := by
  rw [KeyView.class?, creates_keyView hcolumn, if_neg Bool.false_ne_true, keyView]
  simp only [if_neg hcolumn]

theorem sourceDesc_keyView (hcolumn : column ≠ 0) (desc : String) :
    (t.keyView column).sourceDesc desc = Descriptor.rename (t.sourceNames column).get? desc := by
  rw [KeyView.sourceDesc, creates_keyView hcolumn, if_neg Bool.false_ne_true, keyView]
  simp only [if_neg hcolumn]

theorem owner?_of_memberKey? {v : KeyView} {kind : MemberKind} {r : Record}
    {key : MemberKey} (h : r.memberKey? kind = some key) : r.owner? v = v.class? key.owner := by
  unfold Record.memberKey? at h
  split at h
  · next helement =>
    obtain ⟨name, -, rfl⟩ := Option.map_eq_some_iff.1 h
    rw [Record.owner?, helement]
  · next helement =>
    obtain ⟨name, -, rfl⟩ := Option.map_eq_some_iff.1 h
    rw [Record.owner?, helement]
  · cases h

namespace Complete

variable {name : String} {c : ClassMapping}

/-- A record names a class if it bears the name of the class in the column. -/
theorem speaks_of_class_iff (h : t.Complete column) (hcolumn : column ≠ 0)
    (hc : t.class? name = some c) {key : String} (hkey : c.names.get? column = some key)
    (r : Record) :
    r.element = .type ∧ r.owner? (t.keyView column) = some name ↔ r.classKey? = some key := by
  unfold Record.classKey?
  by_cases htype : r.element = .type
  · rw [if_pos htype, Record.owner?, htype]
    simp only [true_and, Option.bind_eq_some_iff, class?_keyView hcolumn]
    constructor
    · rintro ⟨key', hkey', hname⟩
      obtain ⟨c', hc', hsame⟩ := h.sourceNames_iff.1 hname
      rw [hc] at hc'
      cases hc'
      rw [hkey', ← hsame, hkey]
    · exact fun hkey' => ⟨key, hkey', h.sourceNames_iff.2 ⟨c, hc, hkey⟩⟩
  · simp [htype]

/-- A record names a member if it bears the names of the member and its class in the column, and
the descriptor there. -/
theorem speaks_of_member_iff (h : t.Complete column) (hcolumn : column ≠ 0)
    (hc : t.class? name = some c) {owner : String} (howner : c.names.get? column = some owner)
    {kind : MemberKind} {m : MemberMapping} (hm : m ∈ c.members kind) {key desc : String}
    (hkey : m.names.get? column = some key)
    (hdesc : m.desc.map (Descriptor.rename (t.inColumn column)) = some desc) {r : Record}
    (hr : r.Described)
    (hmentions : ∀ owner name desc, r.memberKey? kind = some ⟨owner, name, some desc⟩ →
      ∀ mentioned ∈ Descriptor.classNames desc, (t.class? mentioned).isSome →
        t.HasClass column mentioned) :
    r.speaksOf (t.keyView column) kind m = true ∧ r.owner? (t.keyView column) = some name ↔
      r.memberKey? kind = some ⟨owner, key, some desc⟩ := by
  obtain ⟨found, hfound, rfl⟩ := Option.map_eq_some_iff.1 hdesc
  cases hmember : r.memberKey? kind with
  | none => simp [Record.speaksOf, hmember]
  | some k =>
    obtain ⟨owner', key', desc'⟩ := k
    obtain ⟨desc', rfl⟩ := Option.isSome_iff_exists.1 (hr kind _ hmember)
    rw [Record.speaksOf_iff hmember hfound, owner?_of_memberKey? hmember,
      class?_keyView hcolumn, sourceDesc_keyView hcolumn]
    change (m.names.get? column = some key' ∧ _) ∧ _ ↔ _
    rw [hkey]
    constructor
    · rintro ⟨⟨hsame, rfl⟩, hname⟩
      obtain ⟨c', hc', hsame'⟩ := h.sourceNames_iff.1 hname
      rw [hc] at hc'
      cases hc'
      rw [howner] at hsame'
      cases hsame
      cases hsame'
      rw [h.rename_inColumn_sourceNames (hmentions _ _ _ hmember)]
    · intro hsame
      cases hsame
      exact ⟨⟨rfl, (h.rename_sourceNames_inColumn hc hm hfound).symm⟩,
        h.sourceNames_iff.2 ⟨c, hc, howner⟩⟩

end Complete

theorem foldl_name (columns : List Nat) (records : List Record) (m : MemberMapping) :
    records.foldl (fun m r => m.name columns r) m =
      { m with names := records.foldl (fun names r => names.write columns r 1) m.names } := by
  induction records generalizing m with
  | nil => rfl
  | cons r records ih => exact ih (m.name columns r)

/-- Of the records whose owner is a class, those of the class itself: the one that has its name. -/
theorem records_of_class (h : t.Complete (t.namespaces.idxOf base))
    (hzero : t.namespaces.idxOf base ≠ 0) (hs : s.Layers t base new) {name owner : String}
    {c : ClassMapping} (hc : t.class? name = some c)
    (howner : c.names.get? (t.namespaces.idxOf base) = some owner) :
    (s.records.filter (·.owner? (t.keyView (t.namespaces.idxOf base)) = some name)).filter
        (·.element = .type) =
      (s.records.find? fun r => r.classKey? = some owner).toList := by
  rw [List.filter_filter, ← filter_eq_toList_find? hs.classesOnce]
  refine List.filter_congr fun r _ => ?_
  rw [← Bool.decide_and]
  exact decide_eq_decide.2 (h.speaks_of_class_iff hzero hc howner r)

/-- Of the records whose owner is a class, those of a member: the one that has its key. -/
theorem records_of_member (h : t.Complete (t.namespaces.idxOf base))
    (hzero : t.namespaces.idxOf base ≠ 0) (hs : s.Layers t base new) {name owner : String}
    {c : ClassMapping} (hc : t.class? name = some c)
    (howner : c.names.get? (t.namespaces.idxOf base) = some owner) {kind : MemberKind}
    {m : MemberMapping} (hm : m ∈ c.members kind) {key desc : String}
    (hkey : m.names.get? (t.namespaces.idxOf base) = some key)
    (hdesc : m.desc.map (Descriptor.rename (t.inColumn (t.namespaces.idxOf base))) = some desc) :
    (s.records.filter (·.owner? (t.keyView (t.namespaces.idxOf base)) = some name)).filter
        (·.speaksOf (t.keyView (t.namespaces.idxOf base)) kind m) =
      (s.records.find? fun r => r.memberKey? kind = some ⟨owner, key, some desc⟩).toList := by
  rw [List.filter_filter, ← filter_eq_toList_find? (hs.membersOnce kind)]
  refine List.filter_congr fun r hr => ?_
  rw [Bool.eq_iff_iff, Bool.and_eq_true, decide_eq_true_iff, decide_eq_true_iff]
  exact h.speaks_of_member_iff hzero hc howner hm hkey hdesc (hs.described r hr)
    (hs.mentions r hr kind)

/-- The records of a layer that speak of a class give it and its members their new names. -/
theorem layered_foldl_change (h : t.Complete (t.namespaces.idxOf base))
    (hbase : base ∈ t.namespaces) (hzero : t.namespaces.idxOf base ≠ 0)
    (hs : s.Layers t base new) {name : String} {c : ClassMapping} (hc : t.class? name = some c)
    (hwithin : c.Within t.namespaces.length) :
    let v := t.keyView (t.namespaces.idxOf base)
    let columns := [t.namespaces.idxOf base, t.namespaces.length]
    t.Layered s (t.namespaces.idxOf base) t.namespaces.length c
      ((s.records.filter (·.owner? v = some name)).foldl
        (fun c r => r.change v columns c) c) := by
  intro v columns
  have hv : v.creates = false := creates_keyView hzero
  have hlt : t.namespaces.idxOf base < t.namespaces.length := List.idxOf_lt_length_of_mem hbase
  have hbehind : v.column ∉ columns.drop 1 := by
    simp only [columns, List.drop_succ_cons, List.drop_zero, List.mem_singleton]
    exact Nat.ne_of_lt hlt
  have hdescribed : ∀ r ∈ s.records.filter (·.owner? v = some name), r.Described :=
    fun r hr => hs.described r (List.mem_of_mem_filter hr)
  obtain ⟨-, owner, howner, -⟩ := h.named name c hc
  have hnames : ∀ other, ((s.records.filter (·.owner? v = some name)).foldl
      (fun c r => r.change v columns c) c).names.get? other =
        if other = t.namespaces.length then s.className? owner else c.names.get? other := by
    intro other
    rw [Record.names_foldl_change, records_of_class h hzero hs hc howner,
      Names.get?_foldl_write_layer,
      hwithin.names t.namespaces.length (Nat.le_refl _), Option.or_none]
    rfl
  constructor
  · intro other hother
    rw [hnames, if_neg hother]
  · intro key hkey
    rw [howner] at hkey
    cases hkey
    rw [hnames, if_pos rfl]
  · intro kind
    refine ⟨_, Record.members_foldl_change hv hdescribed hbehind (h.membersApart name c hc) kind, ?_⟩
    intro m hm
    obtain ⟨key, hkey⟩ := Option.isSome_iff_exists.1 (h.membersNamed name c hc kind m hm)
    obtain ⟨found, hfound⟩ :=
      Option.isSome_iff_exists.1 ((h.membersApart name c hc).described kind m hm)
    have hdesc : m.desc.map (Descriptor.rename (t.inColumn (t.namespaces.idxOf base))) =
        some (Descriptor.rename (t.inColumn (t.namespaces.idxOf base)) found) := by
      rw [hfound]
      rfl
    generalize Descriptor.rename (t.inColumn (t.namespaces.idxOf base)) found = desc at hdesc
    have hnone : m.names.get? t.namespaces.length = none :=
      hwithin.members kind m hm _ (Nat.le_refl _)
    rw [records_of_member h hzero hs hc howner hm hkey hdesc, foldl_name]
    refine ⟨rfl, ?_, ?_⟩
    · intro other hother
      exact (Names.get?_foldl_write_layer _ _ _ _ _).trans (if_neg hother)
    · intro owner' key' desc' howner' hkey' hdesc'
      cases howner.symm.trans howner'
      cases hkey.symm.trans hkey'
      cases hdesc.symm.trans hdesc'
      refine (Names.get?_foldl_write_layer _ _ _ _ _).trans ?_
      rw [if_pos rfl, hnone, Option.or_none]
      rfl

/-- A layer goes through, adds its namespace and no class, and gives everything its new names. -/
theorem merge_layer (hbounded : t.Bounded) (h : t.Complete (t.namespaces.idxOf base))
    (hbase : base ∈ t.namespaces) (hzero : t.namespaces.idxOf base ≠ 0)
    (hs : s.Layers t base new) :
    ∃ t', t.merge s = .ok t' ∧ t'.namespaces = t.namespaces ++ [new] ∧ t'.named = t.named ∧
      t'.classes.keys = t.classes.keys ∧
      ∀ name c, t.class? name = some c → ∃ c', t'.class? name = some c' ∧
        t.Layered s (t.namespaces.idxOf base) t.namespaces.length c c' := by
  have hknown : ∀ key name, (t.keyView (t.namespaces.idxOf base)).class? key = some name →
      (t.classes.get? name).isSome := by
    intro key name hname
    rw [class?_keyView hzero] at hname
    obtain ⟨c, hc, -⟩ := h.sourceNames_iff.1 hname
    exact Option.isSome_iff_exists.2 ⟨c, hc⟩
  refine ⟨_, merge_layer_eq hbase hs.keyed hs.destinations hs.isNew, rfl, rfl,
    keys_foldl_apply hknown s.records, ?_⟩
  intro name c hc
  refine ⟨_, ?_, layered_foldl_change h hbase hzero hs hc (hbounded.within name c hc)⟩
  exact (get?_foldl_apply hknown s.records name).trans (by rw [show t.classes.get? name = _ from hc]; rfl)

theorem Layered.sameBut {width : Nat} {c c' : ClassMapping} (h : t.Layered s column width c c') :
    c.SameBut width c' := by
  refine ⟨h.names, fun kind => ?_⟩
  obtain ⟨change, hchange, hkept⟩ := h.members kind
  exact ⟨change, hchange, fun m hm => ⟨(hkept m hm).1, (hkept m hm).2.1⟩⟩

end MappingTree

end JarRemap
