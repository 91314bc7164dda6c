import Mathlib
import JarRemap.Proofs.Merge.Layer

/-!
# The dictionary of a layer

Between the namespace a layer is keyed by and the one it adds, a dictionary says exactly what the
records of the layer say; what they do not speak of keeps its name. Between other namespaces nothing
changes.
-/

namespace JarRemap

namespace Dictionary

/-- What a dictionary finds is what the records of a source say, for the classes and members that a
tree has in the column of the source's key. -/
structure Renders (d : Dictionary) (t : MappingTree) (s : Source) (column : Nat) : Prop where
  /-- A class is mapped to the name that its record gives it. -/
  classes : ∀ r ∈ s.records, ∀ key, r.classKey? = some key → t.HasClass column key →
    d.newClass? key = some ((r.name? 1).getD key)
  /-- A class without a record keeps its name. -/
  otherClasses : ∀ key, t.HasClass column key → (∀ r ∈ s.records, r.classKey? ≠ some key) →
    d.newClass? key = some key
  /-- No record adds a class. -/
  unknownClasses : ∀ key, ¬ t.HasClass column key → d.newClass? key = none
  /-- A member is mapped to the name that its record gives it. -/
  members : ∀ kind, ∀ r ∈ s.records, ∀ owner key desc,
    r.memberKey? kind = some ⟨owner, key, some desc⟩ → t.HasMember column kind owner key desc →
      d.newMember? kind owner key desc = some ((r.name? 1).getD key)
  /-- A member without a record keeps its name. -/
  otherMembers : ∀ kind owner key desc, t.HasMember column kind owner key desc →
    (∀ r ∈ s.records, r.memberKey? kind ≠ some ⟨owner, key, some desc⟩) →
      d.newMember? kind owner key desc = some key
  /-- No record adds a member. -/
  unknownMembers : ∀ kind owner key desc, ¬ t.HasMember column kind owner key desc →
    d.newMember? kind owner key desc = none

end Dictionary

namespace Source

variable {s : Source} {t : MappingTree} {base new : String}

theorem find?_eq_some_of_nodup {α κ : Type} [DecidableEq κ] {key : α → Option κ} {l : List α}
    (h : (l.filterMap key).Nodup) {a : α} (ha : a ∈ l) {k : κ} (hk : key a = some k) :
    (l.find? fun a => key a = some k) = some a := by
  have hmem : a ∈ l.filter fun a => key a = some k :=
    List.mem_filter.2 ⟨ha, decide_eq_true hk⟩
  rw [filter_eq_toList_find? h] at hmem
  exact Option.mem_toList.1 hmem

theorem Layers.className?_eq (hs : s.Layers t base new) {r : Record} (hr : r ∈ s.records)
    {key : String} (hkey : r.classKey? = some key) : s.className? key = r.name? 1 := by
  rw [className?, find?_eq_some_of_nodup hs.classesOnce hr hkey, Option.bind_some]

theorem Layers.memberName?_eq (hs : s.Layers t base new) {kind : MemberKind} {r : Record}
    (hr : r ∈ s.records) {key : MemberKey} (hkey : r.memberKey? kind = some key) :
    s.memberName? kind key = r.name? 1 := by
  rw [memberName?, find?_eq_some_of_nodup (hs.membersOnce kind) hr hkey, Option.bind_some]

theorem className?_eq_none {key : String} (h : ∀ r ∈ s.records, r.classKey? ≠ some key) :
    s.className? key = none := by
  rw [className?, List.find?_eq_none.2 (by simpa using h), Option.bind_none]

theorem memberName?_eq_none {kind : MemberKind} {key : MemberKey}
    (h : ∀ r ∈ s.records, r.memberKey? kind ≠ some key) : s.memberName? kind key = none := by
  rw [memberName?, List.find?_eq_none.2 (by simpa using h), Option.bind_none]

end Source

namespace MappingTree

variable {t t' : MappingTree} {s : Source} {column width : Nat}

/-- A later tree whose classes are those of an earlier one with the names of a source in a new
column. -/
structure LayeredTo (t : MappingTree) (s : Source) (column width : Nat) (t' : MappingTree) :
    Prop where
  keys : t'.classes.keys = t.classes.keys
  layered : ∀ name c, t.class? name = some c →
    ∃ c', t'.class? name = some c' ∧ t.Layered s column width c c'

namespace LayeredTo

/-- The classes of the later tree are the later forms of the classes of the earlier one. -/
theorem exists_of_mem_values (h : t.LayeredTo s column width t') {c' : ClassMapping}
    (hc' : c' ∈ t'.classes.values) :
    ∃ name c, t.class? name = some c ∧ t'.class? name = some c' ∧ t.Layered s column width c c' := by
  obtain ⟨name, hname⟩ := OrderedMap.mem_values_iff.1 hc'
  have hkey : name ∈ t.classes.keys := by
    rw [← h.keys]
    exact List.mem_map.2 ⟨_, OrderedMap.get?_eq_some_iff.1 hname, rfl⟩
  obtain ⟨c, hc⟩ := OrderedMap.exists_get?_of_mem_keys hkey
  obtain ⟨found, hfound, hlayered⟩ := h.layered name c hc
  cases hfound.symm.trans hname
  exact ⟨name, c, hc, hname, hlayered⟩

end LayeredTo

end MappingTree

namespace Dictionary

open MappingTree

variable {t t' : MappingTree} {s : Source} {column width : Nat}

namespace View

variable {v : View} {c c' : ClassMapping} {key : String}

theorem nameOf_layered (h : t.Layered s column width c c') (hlt : column < width)
    (hv : v.first = column) (hkey : c.names.get? column = some key) : v.nameOf c'.names = key := by
  rw [nameOf, hv, h.names column (Nat.ne_of_lt hlt), hkey, Option.getD_some]

theorem renamedOf_layered (h : t.Layered s column width c c') (hlt : column < width)
    (hv : v.first = column) (hv' : v.second = width) (hkey : c.names.get? column = some key) :
    v.renamedOf c'.names = (s.className? key).getD key := by
  rw [renamedOf, nameOf_layered h hlt hv hkey, hv', h.named key hkey]

/-- The dictionary of a layer reads descriptors as the base of the layer has them. -/
theorem descOf_layered (hcomplete : t.Complete column) (hlt : column < width)
    (h : t.LayeredTo s column width t') :
    (ofTree t' column width).descOf = Descriptor.rename (t.inColumn column) := by
  have hsource : ∀ {name c c'}, t.class? name = some c → t.Layered s column width c c' →
      c'.names.source = name := by
    intro name c c' hc hlayered
    rw [Names.source, hlayered.names 0 (by omega), hcomplete.keyed name c hc, Option.getD_some]
  have hmem : ∀ name key, (name, key) ∈ (t'.classes.values.map fun c =>
      (c.names.source, nameOf ⟨column, width, {}⟩ c.names)) ↔
        t.inColumn column name = some key := by
    intro name key
    rw [Complete.inColumn_iff, List.mem_map]
    constructor
    · rintro ⟨c', hc', hpair⟩
      obtain ⟨name', c, hc, -, hlayered⟩ := h.exists_of_mem_values hc'
      obtain ⟨-, key', hkey', -⟩ := hcomplete.named name' c hc
      rw [hsource hc hlayered, nameOf_layered hlayered hlt rfl hkey'] at hpair
      cases hpair
      exact ⟨c, hc, hkey'⟩
    · rintro ⟨c, hc, hkey⟩
      obtain ⟨c', hc', hlayered⟩ := h.layered name c hc
      refine ⟨c', OrderedMap.mem_values_iff.2 ⟨name, hc'⟩, ?_⟩
      rw [hsource hc hlayered, nameOf_layered hlayered hlt rfl hkey]
  have hclasses : (ofTree t' column width).classes.get? = t.inColumn column := by
    funext name
    cases hkey : t.inColumn column name with
    | some key =>
      refine OrderedMap.get?_ofList_of_mem ((hmem name key).2 hkey) fun other hother => ?_
      exact Option.some.inj (((hmem name other).1 hother).symm.trans hkey)
    | none =>
      cases hfound : (ofTree t' column width).classes.get? name with
      | none => rfl
      | some key =>
        have hkey' := (hmem name key).1 (OrderedMap.mem_of_get?_ofList hfound)
        exact absurd (hkey'.symm.trans hkey) (by simp)
  funext desc
  rw [descOf, hclasses]

/-- A class of the tree gives the dictionary of a layer its members with their new names. -/
theorem mem_membersOf_layered (hcomplete : t.Complete column) (hlt : column < width)
    (h : t.LayeredTo s column width t') {name : String} {c c' : ClassMapping}
    (hc : t.class? name = some c) (hlayered : t.Layered s column width c c') {kind : MemberKind}
    {found : MemberNames} :
    found ∈ (ofTree t' column width).membersOf kind c' ↔
      ∃ owner key desc, c.names.get? column = some owner ∧
        (∃ m ∈ c.members kind, m.names.get? column = some key ∧
          m.desc.map (Descriptor.rename (t.inColumn column)) = some desc) ∧
        found = ⟨⟨owner, key, some desc⟩,
          (s.memberName? kind ⟨owner, key, some desc⟩).getD key⟩ := by
  obtain ⟨-, owner, howner, -⟩ := hcomplete.named name c hc
  obtain ⟨change, hchange, hkept⟩ := hlayered.members kind
  have hmemberOf : ∀ m ∈ c.members kind, ∀ key desc, m.names.get? column = some key →
      m.desc.map (Descriptor.rename (t.inColumn column)) = some desc →
        (ofTree t' column width).memberOf ((ofTree t' column width).nameOf c'.names)
          (change m).names (change m).desc =
            ⟨⟨owner, key, some desc⟩,
              (s.memberName? kind ⟨owner, key, some desc⟩).getD key⟩ := by
    intro m hm key desc hkey hdesc
    obtain ⟨hdesc', hnames, hnamed⟩ := hkept m hm
    have hname : (ofTree t' column width).nameOf (change m).names = key := by
      change ((change m).names.get? column).getD _ = key
      rw [hnames column (Nat.ne_of_lt hlt), hkey, Option.getD_some]
    have hrenamed : (ofTree t' column width).renamedOf (change m).names =
        (s.memberName? kind ⟨owner, key, some desc⟩).getD key := by
      rw [renamedOf, hname]
      change ((change m).names.get? width).getD key = _
      rw [hnamed owner key desc howner hkey hdesc]
    rw [memberOf, hname, hrenamed, nameOf_layered hlayered hlt rfl howner,
      descOf_layered hcomplete hlt h, hdesc', hdesc]
  rw [membersOf, hchange, List.map_map, List.mem_map]
  constructor
  · rintro ⟨m, hm, rfl⟩
    obtain ⟨key, hkey⟩ := Option.isSome_iff_exists.1 (hcomplete.membersNamed name c hc kind m hm)
    obtain ⟨desc, hdesc⟩ :=
      Option.isSome_iff_exists.1 ((hcomplete.membersApart name c hc).described kind m hm)
    have hdesc' : m.desc.map (Descriptor.rename (t.inColumn column)) =
        some (Descriptor.rename (t.inColumn column) desc) := by
      rw [hdesc]
      rfl
    exact ⟨owner, key, _, howner, ⟨m, hm, hkey, hdesc'⟩, hmemberOf m hm key _ hkey hdesc'⟩
  · rintro ⟨owner', key, desc, howner', ⟨m, hm, hkey, hdesc⟩, rfl⟩
    cases howner.symm.trans howner'
    exact ⟨m, hm, hmemberOf m hm key desc hkey hdesc⟩

end View

variable {source target : Namespace}

/-- A class that bears a name of the base is found with the name that the layer gives it. -/
theorem newClass?_layered (hcomplete : t.Complete column) (hlt : column < width)
    (h : t.LayeredTo s column width t') {key found : String} :
    (ofColumns t' source target column width).newClass? key = some found ↔
      t.HasClass column key ∧ found = (s.className? key).getD key := by
  have hmem : ∀ found, (key, found) ∈ (t'.classes.values.map fun c =>
      ((View.ofTree t' column width).nameOf c.names,
        (View.ofTree t' column width).renamedOf c.names)) ↔
          t.HasClass column key ∧ found = (s.className? key).getD key := by
    intro found
    rw [List.mem_map]
    constructor
    · rintro ⟨c', hc', hpair⟩
      obtain ⟨name, c, hc, -, hlayered⟩ := h.exists_of_mem_values hc'
      obtain ⟨-, key', hkey', -⟩ := hcomplete.named name c hc
      rw [View.nameOf_layered hlayered hlt rfl hkey',
        View.renamedOf_layered hlayered hlt rfl rfl hkey'] at hpair
      cases hpair
      exact ⟨⟨name, c, hc, hkey'⟩, rfl⟩
    · rintro ⟨⟨name, c, hc, hkey⟩, rfl⟩
      obtain ⟨c', hc', hlayered⟩ := h.layered name c hc
      refine ⟨c', OrderedMap.mem_values_iff.2 ⟨name, hc'⟩, ?_⟩
      rw [View.nameOf_layered hlayered hlt rfl hkey,
        View.renamedOf_layered hlayered hlt rfl rfl hkey]
  rw [ofColumns_eq]
  constructor
  · exact fun hfound => (hmem found).1 (OrderedMap.mem_of_get?_ofList hfound)
  · intro hfound
    refine OrderedMap.get?_ofList_of_mem ((hmem found).2 hfound) fun other hother => ?_
    rw [hfound.2, ((hmem other).1 hother).2]

/-- What the dictionary of a layer has for the members of a kind. -/
theorem mem_members_layered (hcomplete : t.Complete column) (hlt : column < width)
    (h : t.LayeredTo s column width t') (kind : MemberKind) (found : MemberNames) :
    found ∈ (t'.classes.values.map ((View.ofTree t' column width).membersOf kind)).flatten ↔
      ∃ owner key desc, t.HasMember column kind owner key desc ∧
        found = ⟨⟨owner, key, some desc⟩,
          (s.memberName? kind ⟨owner, key, some desc⟩).getD key⟩ := by
  simp only [List.mem_flatten, List.mem_map]
  constructor
  · rintro ⟨members, ⟨c', hc', rfl⟩, hfound⟩
    obtain ⟨name, c, hc, -, hlayered⟩ := h.exists_of_mem_values hc'
    obtain ⟨owner, key, desc, howner, hm, hfound⟩ :=
      (View.mem_membersOf_layered hcomplete hlt h hc hlayered).1 hfound
    exact ⟨owner, key, desc, ⟨name, c, hc, howner, hm⟩, hfound⟩
  · rintro ⟨owner, key, desc, ⟨name, c, hc, howner, hm⟩, hfound⟩
    obtain ⟨c', hc', hlayered⟩ := h.layered name c hc
    exact ⟨_, ⟨c', OrderedMap.mem_values_iff.2 ⟨name, hc'⟩, rfl⟩,
      (View.mem_membersOf_layered hcomplete hlt h hc hlayered).2
        ⟨owner, key, desc, howner, hm, hfound⟩⟩

/-- A member that bears a name of the base is found with the name that the layer gives it. -/
theorem newMember?_layered (hcomplete : t.Complete column) (hlt : column < width)
    (h : t.LayeredTo s column width t') {kind : MemberKind} {owner key desc found : String} :
    (ofColumns t' source target column width).newMember? kind owner key desc = some found ↔
      t.HasMember column kind owner key desc ∧
        found = (s.memberName? kind ⟨owner, key, some desc⟩).getD key := by
  have hmem := mem_members_layered hcomplete hlt h kind
  -- every member comes with a descriptor, so that none is found by its name alone
  have hnone : ((ofColumns t' source target column width).table kind).get? ⟨owner, key, none⟩ =
      none := by
    rw [table_ofColumns]
    refine get?_byKey_eq_none fun m hm => ?_
    obtain ⟨_, _, _, -, rfl⟩ := (hmem m).1 hm
    simp
  rw [newMember?_eq, hnone, Option.or_none, table_ofColumns]
  constructor
  · intro hfound
    rw [get?_byKey] at hfound
    obtain ⟨m, hm, rfl⟩ := Option.map_eq_some_iff.1 hfound
    have hkey : m.key = ⟨owner, key, some desc⟩ := by simpa using List.find?_some hm
    obtain ⟨_, _, _, hmember, rfl⟩ := (hmem m).1 (List.mem_of_find?_eq_some hm)
    cases hkey
    exact ⟨hmember, rfl⟩
  · rintro ⟨hmember, rfl⟩
    refine get?_byKey_of_mem ((hmem _).2 ⟨owner, key, desc, hmember, rfl⟩) ?_
    intro other hother hsame
    obtain ⟨_, _, _, -, rfl⟩ := (hmem other).1 hother
    cases hsame
    rfl

/-- The dictionary of a layer says what the records of the layer say. -/
theorem renders_layered {base new : String} (hcomplete : t.Complete column) (hlt : column < width)
    (hs : s.Layers t base new) (h : t.LayeredTo s column width t') :
    (ofColumns t' source target column width).Renders t s column := by
  have hclass : ∀ {key found}, t.HasClass column key → (s.className? key).getD key = found →
      (ofColumns t' source target column width).newClass? key = some found :=
    fun hkey hfound => (newClass?_layered hcomplete hlt h).2 ⟨hkey, hfound.symm⟩
  have hmember : ∀ {kind owner key desc found}, t.HasMember column kind owner key desc →
      (s.memberName? kind ⟨owner, key, some desc⟩).getD key = found →
      (ofColumns t' source target column width).newMember? kind owner key desc = some found :=
    fun hkey hfound => (newMember?_layered hcomplete hlt h).2 ⟨hkey, hfound.symm⟩
  constructor
  case classes =>
    intro r hr key hkey hhas
    exact hclass hhas (by rw [hs.className?_eq hr hkey])
  case otherClasses =>
    intro key hhas hnone
    exact hclass hhas (by rw [Source.className?_eq_none hnone, Option.getD_none])
  case unknownClasses =>
    intro key hhas
    rw [Option.eq_none_iff_forall_ne_some]
    exact fun found hfound => hhas ((newClass?_layered hcomplete hlt h).1 hfound).1
  case members =>
    intro kind r hr owner key desc hkey hhas
    exact hmember hhas (by rw [hs.memberName?_eq hr hkey])
  case otherMembers =>
    intro kind owner key desc hhas hnone
    exact hmember hhas (by rw [Source.memberName?_eq_none hnone, Option.getD_none])
  case unknownMembers =>
    intro kind owner key desc hhas
    rw [Option.eq_none_iff_forall_ne_some]
    exact fun found hfound => hhas ((newMember?_layered hcomplete hlt h).1 hfound).1

/-- There is a dictionary between two namespaces of a tree; else the first one that is none of the
tree is at fault. -/
theorem ofTree_eq (t : MappingTree) (source target : String) :
    ofTree t source target =
      if source ∈ t.namespaces then
        if target ∈ t.namespaces then
          .ok (ofColumns t ⟨source, t.isNamed source⟩ ⟨target, t.isNamed target⟩
            (t.namespaces.idxOf source) (t.namespaces.idxOf target))
        else .error ⟨target⟩
      else .error ⟨source⟩ := by
  rw [ofTree, namespace?, namespace?]
  simp only [List.contains_iff_mem]
  by_cases hsource : source ∈ t.namespaces
  · rw [if_pos hsource, if_pos hsource]
    by_cases htarget : target ∈ t.namespaces
    · rw [if_pos htarget, if_pos htarget]
      change Except.ok (ofColumns t _ _ ((t.column? source).getD 0) ((t.column? target).getD 0)) = _
      rw [column?, column?, idxOf?_of_mem hsource, idxOf?_of_mem htarget]
      rfl
    · rw [if_neg htarget, if_neg htarget]
      rfl
  · rw [if_neg hsource, if_neg hsource]
    rfl

/-- A dictionary that does not lead from or to the new namespace is the same for the later tree. -/
theorem ofTree_layered {new : String} (hlt : column < t.namespaces.length)
    (h : t.LayeredTo s column t.namespaces.length t') (hnew : t'.namespaces = t.namespaces ++ [new])
    (hnamed : t'.named = t.named) {source target : String} (hsource : source ≠ new)
    (htarget : target ≠ new) : ofTree t' source target = ofTree t source target := by
  have hmem : ∀ name, name ≠ new → (name ∈ t'.namespaces ↔ name ∈ t.namespaces) := by
    intro name hname
    simp [hnew, hname]
  have hisNamed : t'.isNamed = t.isNamed := by
    funext name
    rw [isNamed, isNamed, hnamed]
  have hidx : ∀ name, name ∈ t.namespaces → t'.namespaces.idxOf name = t.namespaces.idxOf name := by
    intro name hname
    rw [hnew, List.idxOf_append, if_pos hname]
  have hlast : ∀ {name}, name ∈ t.namespaces → t.namespaces.idxOf name ≠ t.namespaces.length :=
    fun hname => Nat.ne_of_lt (List.idxOf_lt_length_of_mem hname)
  rw [ofTree_eq, ofTree_eq, hisNamed]
  simp only [hmem source hsource, hmem target htarget]
  split
  · next hs =>
    split
    · next ht =>
      rw [hidx source hs, hidx target ht,
        ofColumns_congr (Nat.ne_of_lt (Nat.zero_lt_of_lt hlt)) h.keys _ (hlast hs) (hlast ht)]
      intro name c hc
      obtain ⟨c', hc', hlayered⟩ := h.layered name c hc
      exact ⟨c', hc', hlayered.sameBut⟩
    · rfl
  · rfl

/-- The classes that a dictionary knows are those of the tree, by their names in its first column. -/
theorem isSome_newClass?_ofColumns {t : MappingTree} {source target : Namespace}
    {first second : Nat} {name : String} :
    ((ofColumns t source target first second).newClass? name).isSome ↔
      ∃ c ∈ t.classes.values, (c.names.get? first).getD c.names.source = name := by
  rw [newClass?, ← OrderedMap.contains_eq_isSome_get?]
  refine OrderedMap.contains_ofList_iff.trans ?_
  rw [List.map_map, List.mem_map]
  rfl

/-- Two dictionaries of a tree from one namespace know the same classes. -/
theorem isSome_newClass?_eq {t : MappingTree} {source target target' : String} {d d' : Dictionary}
    (h : ofTree t source target = .ok d) (h' : ofTree t source target' = .ok d') (name : String) :
    (d.newClass? name).isSome = (d'.newClass? name).isSome := by
  rw [ofTree_eq] at h h'
  split at h
  · next hsource =>
    rw [if_pos hsource] at h'
    split at h
    · split at h'
      · rw [Bool.eq_iff_iff, ← Except.ok.inj h, ← Except.ok.inj h', isSome_newClass?_ofColumns,
          isSome_newClass?_ofColumns]
      · cases h'
    · cases h
  · cases h

end Dictionary

namespace Builder

/-- A layer on a tree that calls build is rendered faithfully. If the names of one of its
destinations tell the classes and members of the tree apart, and a source that is keyed by this
destination has one new namespace and at most one record for each element, then the source is merged,
and between the two namespaces each element goes by the name that its record gives it, or by its own
if it has none. All other dictionaries stay as they are. -/
theorem layer_is_rendered {calls : List Call} {t : MappingTree} (hrun : (run {} calls).tree = t)
    {base new : String} {s : Source} (hbase : base ∈ t.destinations)
    (hcomplete : t.Complete (t.namespaces.idxOf base)) (hlayers : s.Layers t base new) :
    ∃ t' d, t.merge s = .ok t' ∧ Dictionary.ofTree t' base new = .ok d ∧
      d.Renders t s (t.namespaces.idxOf base) ∧
      ∀ source target, source ≠ new → target ≠ new →
        Dictionary.ofTree t' source target = Dictionary.ofTree t source target := by
  have hbounded : t.Bounded := hrun ▸ bounded_run calls
  have hmem : base ∈ t.namespaces := List.mem_of_mem_tail hbase
  have hlt : t.namespaces.idxOf base < t.namespaces.length := List.idxOf_lt_length_of_mem hmem
  have hzero : t.namespaces.idxOf base ≠ 0 := by
    have hnodup := hbounded.nodup
    rw [MappingTree.destinations] at hbase
    cases hnamespaces : t.namespaces with
    | nil => simp [hnamespaces] at hbase
    | cons first rest =>
      rw [hnamespaces] at hbase hnodup
      have hne : first ≠ base := by
        rintro rfl
        exact (List.nodup_cons.1 hnodup).1 hbase
      simp [hne]
  obtain ⟨t', hmerge, hnamespaces, hnamed, hkeys, hclasses⟩ :=
    MappingTree.merge_layer hbounded hcomplete hmem hzero hlayers
  have hlayered : t.LayeredTo s (t.namespaces.idxOf base) t.namespaces.length t' := ⟨hkeys, hclasses⟩
  have hnew : t'.namespaces.idxOf new = t.namespaces.length := by
    rw [hnamespaces, List.idxOf_append, if_neg hlayers.isNew]
    simp
  have hidx : t'.namespaces.idxOf base = t.namespaces.idxOf base := by
    rw [hnamespaces, List.idxOf_append, if_pos hmem]
  have hdictionary := Dictionary.ofTree_eq t' base new
  rw [if_pos (by simp [hnamespaces, hmem]), if_pos (by simp [hnamespaces])] at hdictionary
  refine ⟨t', _, hmerge, hdictionary, ?_, ?_⟩
  · rw [hnew, hidx]
    exact Dictionary.renders_layered hcomplete hlt hlayers hlayered
  · exact fun source target hsource htarget =>
      Dictionary.ofTree_layered hlt hlayered hnamespaces hnamed hsource htarget

namespace Sample

/-- A source of two classes and a member of each kind. -/
def base : Call :=
  .content "base.tiny" (.bytes (bytesOf
    "v1\tofficial\tsearge\nCLASS\ta\tA\nCLASS\tb\tB\nFIELD\ta\tLb;\tf\tbar\nMETHOD\ta\t(La;)Lb;\tm\tfoo\n"))
    (keyedBy "official")

/-- The first class of that source. -/
def baseClass : ClassMapping where
  names := [some "a", some "A"]
  fields := [{ names := [some "f", some "bar"], desc := some "Lb;" }]
  methods := [{ names := [some "m", some "foo"], desc := some "(La;)Lb;" }]

/-- Records in the names of the destination of that source; the field has none. -/
def layer : Source where
  key := "searge"
  destinations := ["mcp"]
  lineage := []
  records :=
    [⟨.type, [some "A", some "Foo"], none⟩,
      ⟨.method "A" (some "(LA;)LB;"), [some "foo", some "doIt"], none⟩]

theorem entries_base : (run {} [base]).tree.classes.entries =
    [("a", baseClass), ("b", { names := [some "b", some "B"] })] := by
  cbv

theorem namespaces_base : (run {} [base]).tree.namespaces = ["official", "searge"] := by
  cbv

theorem class?_base_iff {name : String} {c : ClassMapping} :
    (run {} [base]).tree.class? name = some c ↔
      name = "a" ∧ c = baseClass ∨ name = "b" ∧ c = { names := [some "b", some "B"] } := by
  rw [MappingTree.class?, OrderedMap.get?_eq_some_iff, entries_base]
  simp

theorem complete_base : (run {} [base]).tree.Complete 1 := by
  have hmembers : ∀ kind (m : MemberMapping), m ∈ baseClass.members kind →
      m = ⟨[some "f", some "bar"], some "Lb;"⟩ ∨ m = ⟨[some "m", some "foo"], some "(La;)Lb;"⟩ := by
    rintro (_ | _) m hm
    · exact .inl (List.mem_singleton.1 hm)
    · exact .inr (List.mem_singleton.1 hm)
  constructor
  case keyed =>
    intro name c hc
    rcases class?_base_iff.1 hc with ⟨rfl, rfl⟩ | ⟨rfl, rfl⟩ <;> rfl
  case named =>
    intro name c hc
    rcases class?_base_iff.1 hc with ⟨rfl, rfl⟩ | ⟨rfl, rfl⟩
    · exact ⟨by decide, "A", rfl, by decide⟩
    · exact ⟨by decide, "B", rfl, by decide⟩
  case apart =>
    intro name c name' c' hc hc' hsame
    rcases class?_base_iff.1 hc with ⟨rfl, rfl⟩ | ⟨rfl, rfl⟩ <;>
      rcases class?_base_iff.1 hc' with ⟨rfl, rfl⟩ | ⟨rfl, rfl⟩
    · rfl
    · exact absurd hsame (by decide)
    · exact absurd hsame (by decide)
    · rfl
  case membersNamed =>
    intro name c hc kind m hm
    rcases class?_base_iff.1 hc with ⟨rfl, rfl⟩ | ⟨rfl, rfl⟩
    · rcases hmembers kind m hm with rfl | rfl <;> rfl
    · cases kind <;> cases hm
  case membersApart =>
    intro name c hc
    rcases class?_base_iff.1 hc with ⟨rfl, rfl⟩ | ⟨rfl, rfl⟩
    · refine ⟨fun kind m hm => ?_, by rintro (_ | _) <;> decide⟩
      rcases hmembers kind m hm with rfl | rfl <;> rfl
    · exact ⟨by rintro (_ | _) _ ⟨⟩, by rintro (_ | _) <;> decide⟩
  case mentions =>
    intro name c hc kind m hm desc hdesc mentioned hmentioned _
    have hknown : mentioned = "a" ∨ mentioned = "b" := by
      rcases class?_base_iff.1 hc with ⟨rfl, rfl⟩ | ⟨rfl, rfl⟩
      · rcases hmembers kind m hm with rfl | rfl <;> cases hdesc
        · exact .inr (by simpa [show Descriptor.classNames "Lb;" = ["b"] by decide] using hmentioned)
        · simpa [show Descriptor.classNames "(La;)Lb;" = ["a", "b"] by decide] using hmentioned
      · cases kind <;> cases hm
    rcases hknown with rfl | rfl
    · exact Option.isSome_iff_exists.2 ⟨_, class?_base_iff.2 (.inl ⟨rfl, rfl⟩)⟩
    · exact Option.isSome_iff_exists.2 ⟨_, class?_base_iff.2 (.inr ⟨rfl, rfl⟩)⟩

theorem layers_layer : layer.Layers (run {} [base]).tree "searge" "mcp" := by
  constructor
  case keyed => rfl
  case destinations => rfl
  case isNew =>
    rw [namespaces_base]
    decide
  case classesOnce => decide
  case membersOnce => rintro (_ | _) <;> decide
  case described =>
    intro r hr kind key hkey
    rcases List.mem_pair.1 hr with rfl | rfl <;> cases kind <;> cases hkey
    rfl
  case mentions =>
    intro r hr kind owner name desc hkey mentioned hmentioned hknown
    obtain ⟨c, hc⟩ := Option.isSome_iff_exists.1 hknown
    rcases List.mem_pair.1 hr with rfl | rfl <;> cases kind <;> cases hkey
    rw [show Descriptor.classNames "(LA;)LB;" = ["A", "B"] by decide] at hmentioned
    rcases List.mem_pair.1 hmentioned with rfl | rfl <;>
      rcases class?_base_iff.1 hc with ⟨h, -⟩ | ⟨h, -⟩ <;> exact absurd h (by decide)

end Sample

open Sample in
theorem layer_is_rendered_base :
    ∃ t' d, (run {} [base]).tree.merge layer = .ok t' ∧
      Dictionary.ofTree t' "searge" "mcp" = .ok d ∧
      d.newClass? "A" = some "Foo" ∧ d.newClass? "B" = some "B" ∧
      d.newMember? .method "A" "foo" "(LA;)LB;" = some "doIt" ∧
      d.newMember? .field "A" "bar" "LB;" = some "bar" := by
  have hdestination : "searge" ∈ (run {} [base]).tree.destinations := by
    rw [MappingTree.destinations, namespaces_base]
    decide
  have hcolumn : (run {} [base]).tree.namespaces.idxOf "searge" = 1 := by
    rw [namespaces_base]
    decide
  obtain ⟨t', d, hmerge, hdictionary, hrenders, -⟩ :=
    layer_is_rendered rfl hdestination (hcolumn ▸ complete_base) layers_layer
  rw [hcolumn] at hrenders
  have hA := class?_base_iff.2 (.inl ⟨rfl, rfl⟩)
  have hB := class?_base_iff.2 (.inr ⟨rfl, rfl⟩)
  have hmethod : (run {} [base]).tree.HasMember 1 .method "A" "foo" "(LA;)LB;" :=
    ⟨"a", _, hA, rfl, _, List.mem_singleton_self _, rfl, by cbv⟩
  have hfield : (run {} [base]).tree.HasMember 1 .field "A" "bar" "LB;" :=
    ⟨"a", _, hA, rfl, _, List.mem_singleton_self _, rfl, by cbv⟩
  refine ⟨t', d, hmerge, hdictionary, ?_, ?_, ?_, ?_⟩
  · exact hrenders.classes _ List.mem_cons_self "A" rfl ⟨"a", _, hA, rfl⟩
  · exact hrenders.otherClasses "B" ⟨"b", _, hB, rfl⟩ (by decide)
  · exact hrenders.members .method _ (List.mem_cons_of_mem _ (List.mem_singleton_self _)) _ _ _ rfl
      hmethod
  · exact hrenders.otherMembers .field _ _ _ hfield (by decide)

end Builder

end JarRemap
