import JarRemap.Proofs.Adapt.Twins
import JarRemap.Proofs.Dictionary.Apart
import JarRemap.Proofs.Dictionary.Layered

/-!
# What a source means

A source means the dictionaries of the tree it is merged into. Twin trees have the same dictionaries
from every namespace in which everything has a name, so keying a source by another column does not
change what it means.
-/

namespace JarRemap

open Dictionary (View)

section Forall2

variable {α β γ : Type} {R : α → β → Prop} {l : List α} {l' : List β}

theorem map_eq_of_forall₂ {g : α → γ} {g' : β → γ} (h : List.Forall₂ R l l')
    (hg : ∀ a b, R a b → g a = g' b) : l.map g = l'.map g' := by
  induction h with
  | nil => rfl
  | cons hab _ ih => rw [List.map_cons, List.map_cons, hg _ _ hab, ih]

theorem map_find?_eq_of_forall₂ {p : α → Bool} {p' : β → Bool} {g : α → γ} {g' : β → γ}
    (h : List.Forall₂ R l l') (hp : ∀ a b, R a b → p a = p' b) (hg : ∀ a b, R a b → g a = g' b) :
    (l.find? p).map g = (l'.find? p').map g' := by
  induction h with
  | nil => rfl
  | @cons a b _ _ hab _ ih =>
    rw [List.find?_cons, List.find?_cons, ← hp a b hab]
    split
    · rw [Option.map_some, Option.map_some, hg a b hab]
    · exact ih

end Forall2

theorem zero_not_mem_drop_range (width : Nat) : 0 ∉ (List.range width).drop 1 := by
  rw [List.mem_iff_getElem?]
  rintro ⟨i, hi⟩
  rw [List.getElem?_drop, List.getElem?_eq_some_iff] at hi
  obtain ⟨_, hi⟩ := hi
  rw [List.getElem_range] at hi
  omega

theorem Record.owner?_of_className? {r : Record} {name : String}
    (h : r.className? 0 = some name) : r.owner? .first = some name := by
  obtain ⟨helement, hkey⟩ := className?_eq_some_iff.1 h
  rw [owner?_first, if_pos helement]
  exact hkey

namespace Source

variable {s : Source} {k : Nat}

/-- The classes of an empty tree that the source is merged into. -/
def merged (s : Source) : OrderedMap String ClassMapping :=
  s.records.foldl (MappingTree.apply .first (List.range s.width)) {}

/-- Every class, field and method of a source has a name in a namespace. -/
def NamedIn (s : Source) (namespaceName : String) : Prop :=
  ∀ r ∈ s.records, r.element.isParam = false →
    (r.name? (s.namespaces.idxOf namespaceName)).isSome

namespace Switchable

theorem unique_merged (name : String) (c : ClassMapping) (hc : s.merged.get? name = some c) :
    c.Unique := by
  refine MappingTree.foldl_apply_invariant (P := fun _ c => c.Unique)
    (fun name => ClassMapping.unique_ofSource name) ?_ (fun name c hnone => by cases hnone) name c
    hc
  exact fun r _ name c hc => (r.changes_change _ _ c).unique (zero_not_mem_drop_range s.width) hc

/-- Every class of the source is in the tree, under its key. -/
theorem exists_source_merged {name : String} (hname : s.HasClass 0 name) :
    ∃ c ∈ s.merged.values, c.names.source = name := by
  obtain ⟨r, hr, hclass⟩ := hname
  obtain ⟨c, hc, -⟩ := MappingTree.exists_get?_foldl_first s.width {} (P := fun _ => True)
    (fun _ _ _ _ => trivial) hr (Record.owner?_of_className? hclass)
    (fun _ => trivial)
  have hkey : c.names.get? 0 = some name := by
    refine MappingTree.foldl_apply_invariant (P := fun name c => c.names.get? 0 = some name)
      (fun _ => rfl) ?_ (fun name c hnone => by cases hnone) name c hc
    intro r _ name c hc
    rw [(r.keepsColumn_change (zero_not_mem_drop_range s.width) c).name, hc]
  refine ⟨c, OrderedMap.mem_values_iff.2 ⟨name, hc⟩, ?_⟩
  rw [Names.source, hkey, Option.getD_some]

/-- A class has a name in each column in which its record has one. -/
theorem isSome_class_merged {i : Nat} (hpos : 0 < i) (hi : i < s.width)
    (hnamed : ∀ r ∈ s.records, r.element.isParam = false → (r.name? i).isSome) {name : String}
    (hname : s.HasClass 0 name) :
    ∃ c, s.merged.get? name = some c ∧ (c.names.get? i).isSome := by
  obtain ⟨r, hr, hclass⟩ := hname
  have helement := (Record.className?_eq_some_iff.1 hclass).1
  refine MappingTree.exists_get?_foldl_first _ _ (fun c c' hc hbecomes => hbecomes.named i hc) hr
    (Record.owner?_of_className? hclass) fun c => ?_
  rw [Record.names_change, if_pos helement, Names.get?_write_range, if_pos ⟨hpos, hi⟩,
    Option.isSome_or, hnamed r hr (by rw [helement]; rfl), Bool.true_or]

/-- A member that has a record has a name in each column in which its record has one. -/
theorem isSome_member_merged {i : Nat} (hi : i < s.width) {kind : MemberKind} {r : Record}
    (hr : r ∈ s.records) {key : MemberKey} (hkey : r.memberKey? kind = some key)
    (hname : (r.name? i).isSome) {c : ClassMapping} (hc : s.merged.get? key.owner = some c)
    {m : MemberMapping} (hm : m ∈ c.members kind) (hsource : m.names.get? 0 = some key.name)
    (hdesc : m.desc = key.desc) : (m.names.get? i).isSome := by
  obtain ⟨hmentions, hparam⟩ := Record.mentions?_of_memberKey? hkey
  have howner : r.owner? .first = some key.owner := by
    have hmember := Record.owner?_of_mentions? hmentions
    rw [Record.owner?_first, hmember, if_neg]
    intro htype
    rw [htype] at hmember
    cases hmember
  obtain ⟨c', hc', m', hm', hsource', hdesc', hsome⟩ :=
    MappingTree.exists_get?_foldl_first s.width {}
      (P := fun c => ∃ m ∈ c.members kind, m.names.get? 0 = some key.name ∧
        (key.desc.isSome → m.desc = key.desc) ∧ (m.names.get? i).isSome)
      (by
        rintro c c' ⟨m, hm, hsource, hdesc, hsome⟩ hbecomes
        obtain ⟨m', hm', hlater⟩ := hbecomes.members kind m hm
        refine ⟨m', hm', hlater.name.trans hsource, fun hkeyDesc => ?_, hlater.named i hsome⟩
        have hsame := hdesc hkeyDesc
        exact (hlater.desc (hsame ▸ hkeyDesc)).trans hsame)
      hr howner fun c => by
        rw [Record.members_change_first, hmentions]
        obtain ⟨m, hfor, hmem⟩ := MemberMapping.exists_mem_upsert key.name key.desc
          (r.changeMember (List.range s.width) key.desc) (c.members kind)
        refine ⟨_, hmem, ?_⟩
        rw [Record.changeMember, if_neg (by rw [hparam]; exact Bool.false_ne_true)]
        obtain ⟨hsource, hdesc, hnames⟩ := MemberMapping.annotate_of_isFor s.width r hfor
        exact ⟨hsource, hdesc, hnames i hi hname⟩
  cases hc.symm.trans hc'
  -- the member that the record named is the only one of its key
  have hsame : m = m' := by
    refine eq_of_pairwise (fun a b hab hba => hab hba.symm)
      ((unique_merged key.owner c hc).members kind) hm hm' fun hapart => hapart ?_
    refine ⟨hsource.trans hsource'.symm, ?_⟩
    rw [hdesc]
    cases hd : key.desc with
    | none => rfl
    | some d =>
      rw [hdesc' (by rw [hd]; rfl), hd]
      exact beq_self_eq_true d
  exact hsame ▸ hsome

end Switchable

/-- How two columns of a tree are seen, in a tree in which the first column and another one are
exchanged. -/
structure Exchanged (k : Nat) (v v' : View) : Prop where
  first : v'.first = Equiv.swap 0 k v.first
  second : v'.second = Equiv.swap 0 k v.second

theorem Exchanged.nameOf_eq {v v' : View} (hview : Exchanged k v v') {names names' : Names}
    {x y : String} (hx : names.get? 0 = some x) (hy : names'.get? 0 = some y)
    (h : (names.Bare ∧ names'.Bare ∧ x = y) ∨
      (names.Swapped k names' ∧ (names.get? v.first).isSome)) :
    v.nameOf names = v'.nameOf names' ∧ v.renamedOf names = v'.renamedOf names' := by
  rcases h with ⟨hbare, hbare', rfl⟩ | ⟨hswapped, hsome⟩
  · have hall : ∀ {names : Names}, names.Bare → names.get? 0 = some x → ∀ column,
        (names.get? column).getD x = x := by
      intro names hbare hx column
      cases column with
      | zero => rw [hx, Option.getD_some]
      | succ column => rw [hbare _ (Nat.succ_pos column), Option.getD_none]
    have hname : v.nameOf names = x ∧ v'.nameOf names' = x := by
      rw [View.nameOf, View.nameOf, Names.source, Names.source, hx, hy]
      exact ⟨hall hbare hx _, hall hbare' hy _⟩
    rw [View.renamedOf, View.renamedOf, hname.1, hname.2, hall hbare hx, hall hbare' hy]
    exact ⟨rfl, rfl⟩
  · have hname : v.nameOf names = v'.nameOf names' := by
      obtain ⟨name, hname⟩ := Option.isSome_iff_exists.1 hsome
      rw [View.nameOf, View.nameOf, hview.first, hswapped, hname]
      rfl
    refine ⟨hname, ?_⟩
    rw [View.renamedOf, View.renamedOf, hview.second, hswapped, hname]

/-- Two forms of a member that are seen alike in two trees. -/
structure MemberAlike (s : Source) (k : Nat) (v v' : View) (m m' : MemberMapping) : Prop where
  name : v.nameOf m.names = v'.nameOf m'.names
  renamed : v.renamedOf m.names = v'.renamedOf m'.names
  hasDesc : s.HasDesc m.desc
  desc : m'.desc = m.desc.map (Descriptor.rename (s.classMap k))

/-- Two forms of a class that are seen alike in two trees. -/
structure ClassAlike (s : Source) (k : Nat) (v v' : View) (c c' : ClassMapping) : Prop where
  known : s.HasClass 0 c.names.source
  source : c'.names.source = (s.classMap k).image c.names.source
  name : v.nameOf c.names = v'.nameOf c'.names
  renamed : v.renamedOf c.names = v'.renamedOf c'.names
  members : ∀ kind, List.Forall₂ (s.MemberAlike k v v') (c.members kind) (c'.members kind)

namespace Switchable

variable {v v' : View}

/-- Twin trees are seen alike from a column in which everything has a name. -/
theorem forall₂_alike (h : s.Switchable k) (hparams : s.ParamsKnown k) (hpos : 0 < k)
    (hview : Exchanged k v v') (hinside : v.first < s.width)
    (hnamed : ∀ r ∈ s.records, r.element.isParam = false → (r.name? v.first).isSome) :
    List.Forall₂ (s.ClassAlike k v v') s.merged.values
      ((s.records.map (s.rekeyed k)).foldl
        (MappingTree.apply .first (List.range s.width)) {}).values := by
  have hk : ∀ r ∈ s.records, r.element.isParam = false → (r.name? k).isSome :=
    fun r hr hparam => h.named r hr hparam k (List.mem_cons_of_mem 0 List.mem_cons_self)
  have htwins := (List.forall₂_and_left _ _).2 ⟨fun e he => he, h.forall₂_foldl hparams hpos⟩
  rw [OrderedMap.values, OrderedMap.values, List.forall₂_map_left_iff, List.forall₂_map_right_iff]
  refine htwins.imp fun e e' hboth => ?_
  obtain ⟨he, htwin⟩ := hboth
  have hget : s.merged.get? e.1 = some e.2 := OrderedMap.get?_eq_some_iff.2 he
  have hsource : e.2.names.source = e.1 := by rw [Names.source, htwin.twin.source, Option.getD_some]
  have hsource' : e'.2.names.source = (s.classMap k).image e.1 := by
    rw [Names.source, htwin.twin.source', Option.getD_some]
  have hclass : e.2.names.Swapped k e'.2.names ∧ (e.2.names.get? v.first).isSome := by
    constructor
    · obtain ⟨c, hc, hsome⟩ := isSome_class_merged hpos h.inside hk htwin.known
      cases hget.symm.trans hc
      refine htwin.twin.rest.resolve_left fun hbare => ?_
      rw [hbare.1 k hpos] at hsome
      cases hsome
    · rcases Nat.eq_zero_or_pos v.first with hzero | hfirst
      · rw [hzero, htwin.twin.source]
        rfl
      · obtain ⟨c, hc, hsome⟩ := isSome_class_merged hfirst hinside hnamed htwin.known
        cases hget.symm.trans hc
        exact hsome
  have hnames := hview.nameOf_eq htwin.twin.source htwin.twin.source' (.inr hclass)
  refine ⟨hsource ▸ htwin.known, hsource ▸ hsource', hnames.1, hnames.2, fun kind => ?_⟩
  have hmembers := (List.forall₂_and_left _ _).2 ⟨fun m hm => hm, htwin.twin.members kind⟩
  refine hmembers.imp fun m m' hboth => ?_
  obtain ⟨hm, key, name, howner, htwinM⟩ := hboth
  have hrecorded : ∀ i, i < s.width →
      (∀ r ∈ s.records, r.element.isParam = false → (r.name? i).isSome) →
      (∃ r ∈ s.records, r.memberKey? kind = some key) → (m.names.get? i).isSome := by
    rintro i hi hsome ⟨r, hr, hkey⟩
    have hname := hsome r hr (Record.mentions?_of_memberKey? hkey).2
    refine isSome_member_merged hi hr hkey hname ?_ hm htwinM.source htwinM.desc
    rw [howner]
    exact hget
  have hrest : (m.names.Bare ∧ m'.names.Bare ∧ key.name = name) ∨
      (m.names.Swapped k m'.names ∧ (m.names.get? v.first).isSome) := by
    rcases htwinM.rest with ⟨hbare, hbare'⟩ | ⟨hswapped, hrecord⟩
    · cases htwinM.other with
      | recorded mem keyed =>
        have hsome := hrecorded k h.inside hk ⟨_, mem, keyed⟩
        rw [hbare k hpos] at hsome
        cases hsome
      | unrecorded => exact .inl ⟨hbare, hbare', rfl⟩
    · exact .inr ⟨hswapped, hrecorded _ hinside hnamed hrecord⟩
  have hmember := hview.nameOf_eq htwinM.source htwinM.source' hrest
  refine ⟨hmember.1, hmember.2, ?_, ?_⟩
  · rw [htwinM.desc]
    exact hasDesc htwinM.other
  · rw [htwinM.desc, htwinM.desc']

/-- A class that a descriptor may mention has the same name in trees that are seen alike. -/
theorem image_eq_of_alike (h : s.Switchable k) {t t' : MappingTree} {i j i' j' : Nat}
    (hclasses : t.classes = s.merged)
    (halike : List.Forall₂ (s.ClassAlike k (View.ofTree t i j) (View.ofTree t' i' j'))
      t.classes.values t'.classes.values) {name : String}
    (hname : s.HasClass 0 name ∨ ¬ s.HasClass 0 name ∧ ¬ s.HasClass k name) :
    ClassMap.image (View.ofTree t' i' j').classes.get? ((s.classMap k).image name) =
      ClassMap.image (View.ofTree t i j).classes.get? name := by
  have hlookup : ∀ (t : MappingTree) (i j : Nat) (name : String),
      (View.ofTree t i j).classes.get? name =
        (t.classes.values.reverse.find? fun c => c.names.source = name).map
          fun c => (View.ofTree t i j).nameOf c.names :=
    fun t i j name => OrderedMap.get?_ofList_map _ _ _ name
  have hsame : (View.ofTree t i j).classes.get? name =
      (View.ofTree t' i' j').classes.get? ((s.classMap k).image name) := by
    rw [hlookup, hlookup]
    refine map_find?_eq_of_forall₂ (List.forall₂_reverse_iff.2 halike) ?_ fun c c' hc => hc.name
    intro c c' hc
    rw [decide_eq_decide, hc.source, h.twoNamed.image_classMap_inj (.inl hc.known) hname]
  change ((View.ofTree t' i' j').classes.get? ((s.classMap k).image name)).getD
    ((s.classMap k).image name) = ((View.ofTree t i j).classes.get? name).getD name
  rw [← hsame]
  cases hget : (View.ofTree t i j).classes.get? name with
  | some found => rfl
  | none =>
    rcases hname with hknown | hunknown
    · obtain ⟨c, hc, hsource⟩ := exists_source_merged hknown
      rw [hlookup, Option.map_eq_none_iff, List.find?_eq_none, hclasses] at hget
      exact absurd (decide_eq_true hsource) (hget c (List.mem_reverse.2 hc))
    · have hnone : s.classMap k name = none := by
        refine Option.eq_none_iff_forall_ne_some.2 fun other hmap => ?_
        obtain ⟨r, hr, hkey, -⟩ := h.twoNamed.classMap_eq_some_iff.1 hmap
        exact hunknown.1 ⟨r, hr, hkey⟩
      rw [ClassMap.image, hnone]
      rfl

/-- The dictionaries of trees that are seen alike are the same. -/
theorem ofColumns_eq_of_alike (h : s.Switchable k) {t t' : MappingTree} {i j i' j' : Nat}
    (hclasses : t.classes = s.merged)
    (halike : List.Forall₂ (s.ClassAlike k (View.ofTree t i j) (View.ofTree t' i' j'))
      t.classes.values t'.classes.values) (source target : Namespace) :
    Dictionary.ofColumns t source target i j = Dictionary.ofColumns t' source target i' j' := by
  have hdesc : ∀ desc, s.HasDesc desc → desc.map (View.ofTree t i j).descOf =
      (desc.map (Descriptor.rename (s.classMap k))).map (View.ofTree t' i' j').descOf := by
    intro desc hknown
    cases desc with
    | none => rfl
    | some d =>
      obtain ⟨r, hr, hrecord⟩ := hknown d rfl
      refine congrArg some ?_
      rw [View.descOf, View.descOf, Descriptor.rename_rename _ h.twoNamed.unbroken_classMap]
      refine (Descriptor.rename_congr fun mentioned hmentioned => ?_).symm
      exact h.image_eq_of_alike hclasses halike (h.mentions r hr d hrecord mentioned hmentioned)
  have hmembers : ∀ kind, t.classes.values.map ((View.ofTree t i j).membersOf kind) =
      t'.classes.values.map ((View.ofTree t' i' j').membersOf kind) := by
    intro kind
    refine map_eq_of_forall₂ halike fun c c' hc => ?_
    refine map_eq_of_forall₂ (hc.members kind) fun m m' hm => ?_
    rw [View.memberOf, View.memberOf, hc.name, hm.name, hm.renamed, hm.desc, hdesc _ hm.hasDesc]
  have hnames : t.classes.values.map (fun c => ((View.ofTree t i j).nameOf c.names,
      (View.ofTree t i j).renamedOf c.names)) =
      t'.classes.values.map (fun c => ((View.ofTree t' i' j').nameOf c.names,
        (View.ofTree t' i' j').renamedOf c.names)) :=
    map_eq_of_forall₂ halike fun c c' hc => by rw [hc.name, hc.renamed]
  rw [Dictionary.ofColumns_eq, Dictionary.ofColumns_eq]
  dsimp only
  rw [hnames, hmembers .field, hmembers .method]

end Switchable

end Source

namespace Source

variable {s : Source} {k : Nat}

/-- Keying a source by a column does not change what it means. If the key and the column both name
every class, field and method and tell them apart, and every parameter is known, then an empty tree
takes the source in either form, and the dictionaries of the two trees from a namespace in which
everything has a name are one and the same: whatever they are asked for, they answer alike. -/
theorem rekeyed_means_the_same {namespaceName : String} (h : s.Switchable k)
    (hparams : s.ParamsKnown k) (hname : s.namespaces[k]? = some namespaceName) :
    ∃ t t', ({} : MappingTree).merge s = .ok t ∧
      ({} : MappingTree).merge (s.rekey namespaceName) = .ok t' ∧
      ∀ source ∈ s.namespaces, ∀ target ∈ s.namespaces, s.NamedIn source →
        ∃ d, Dictionary.ofTree t source target = .ok d ∧
          Dictionary.ofTree t' source target = .ok d := by
  have hmerge := MappingTree.merge_empty h.namespaces
  rcases Nat.eq_zero_or_pos k with rfl | hpos
  · have hkey : s.rekey namespaceName = s := by
      rw [namespaces, List.getElem?_cons_zero] at hname
      rw [rekey, if_pos (Option.some.inj hname)]
    rw [hkey]
    refine ⟨_, _, hmerge, hmerge, fun source hsource target htarget _ => ?_⟩
    rw [Dictionary.ofTree_eq, if_pos hsource, if_pos htarget]
    exact ⟨_, rfl, rfl⟩
  · have hlt : k < s.namespaces.length := h.inside
    have hnamespaces := namespaces_rekeyColumn h.inside
    have hwidth : (s.rekeyColumn k).width = s.width := by
      have hlength := congrArg List.length hnamespaces
      rwa [length_swapFirst] at hlength
    have hmerge' := MappingTree.merge_empty (s := s.rekeyColumn k)
      (hnamespaces ▸ nodup_swapFirst hlt h.namespaces)
    rw [hnamespaces, hwidth, records_rekeyColumn] at hmerge'
    rw [rekey_of_getElem? h.namespaces hpos hname]
    refine ⟨_, _, hmerge, hmerge', fun source hsource target htarget hnamed => ?_⟩
    have hmem : ∀ name ∈ s.namespaces, name ∈ swapFirst k s.namespaces := by
      intro name hname
      have hidx := List.idxOf_lt_length_of_mem hname
      refine List.mem_of_getElem? (i := Equiv.swap 0 k (s.namespaces.idxOf name)) ?_
      rw [getElem?_swapFirst hlt, Equiv.swap_apply_self, List.getElem?_eq_getElem hidx,
        List.getElem_idxOf]
    rw [Dictionary.ofTree_eq, Dictionary.ofTree_eq, if_pos hsource, if_pos htarget,
      if_pos (hmem source hsource), if_pos (hmem target htarget)]
    refine ⟨_, rfl, congrArg Except.ok ?_⟩
    have hview : Exchanged k
        (View.ofTree ⟨s.namespaces, [], {}, s.merged⟩ (s.namespaces.idxOf source)
          (s.namespaces.idxOf target))
        (View.ofTree ⟨swapFirst k s.namespaces, [], {}, (s.records.map (s.rekeyed k)).foldl
          (MappingTree.apply .first (List.range s.width)) {}⟩
          ((swapFirst k s.namespaces).idxOf source)
          ((swapFirst k s.namespaces).idxOf target)) :=
      ⟨idxOf_swapFirst hlt h.namespaces hsource, idxOf_swapFirst hlt h.namespaces htarget⟩
    exact (h.ofColumns_eq_of_alike (t := ⟨s.namespaces, [], {}, s.merged⟩) rfl
      (h.forall₂_alike hparams hpos hview (List.idxOf_lt_length_of_mem hsource) hnamed) _ _).symm

namespace Sample

/-- A class with a method, and a parameter of some method of the class. -/
def paramOf (method : String) (desc : Option String) : Source :=
  (start "x" ["y"]).pushAll
    [⟨.type, [some "a", some "A"], none⟩,
      ⟨.method "a" (some "(La;)V"), [some "m", some "n"], none⟩,
      ⟨.param "a" method desc 0, [none, some "first"], none⟩]

/-- The dictionary of a source from `x` to `y`. -/
def dictionary? (s : Source) : Option Dictionary := do
  let t ← (({} : MappingTree).merge s).toOption
  (Dictionary.ofTree t "x" "y").toOption

variable (method : String) (desc : Option String)

theorem records_paramOf :
    (paramOf method desc).records =
      [⟨.type, [some "a", some "A"], none⟩,
        ⟨.method "a" (some "(La;)V"), [some "m", some "n"], none⟩,
        ⟨.param "a" method desc 0, [none, some "first"], none⟩] := rfl

theorem switchable_paramOf (hdesc : desc = none ∨ desc = some "(La;)V") :
    (paramOf method desc).Switchable 1 := by
  have hclasses : Descriptor.classNames "(La;)V" = ["a"] := by cbv
  have hknown : (paramOf method desc).HasClass 0 "a" := by
    refine ⟨⟨.type, [some "a", some "A"], none⟩, ?_, by decide⟩
    rw [records_paramOf]
    exact List.mem_cons_self
  have hnamespaces : (paramOf method desc).namespaces.Nodup := by
    simp [paramOf, start, pushAll, namespaces]
  refine ⟨Nat.lt_add_one 1, hnamespaces, ?_, ?_, ?_, ?_, ?_, ?_⟩ <;> rw [records_paramOf]
  · simp [Element.isParam, Record.name?]
  · simp [Record.className?, Record.name?]
  · intro i _ kind
    cases kind <;> simp [Record.memberIn?]
  · simpa [Element.owner?] using hknown
  · simp
  · rcases hdesc with rfl | rfl <;> simp [Element.desc?, hclasses, hknown]

theorem namedIn_paramOf : (paramOf method desc).NamedIn "x" := by
  rw [NamedIn, records_paramOf]
  simp [Element.isParam, Record.name?, paramOf, start, pushAll, namespaces]

end Sample

open Sample in
/-- A parameter that speaks of its method as the method's own record does. -/
theorem rekeyed_means_the_same_fullDesc :
    (paramOf "m" (some "(La;)V")).Switchable 1 ∧ (paramOf "m" (some "(La;)V")).ParamsKnown 1 ∧
    (paramOf "m" (some "(La;)V")).NamedIn "x" ∧
    (dictionary? ((paramOf "m" (some "(La;)V")).rekey "y")).map (·.newMethod? "a" "m" "(La;)V") =
      some (some "n") := by
  have hswitchable := switchable_paramOf "m" (some "(La;)V") (.inr rfl)
  have hparams : (paramOf "m" (some "(La;)V")).ParamsKnown 1 := by
    rw [ParamsKnown, records_paramOf]
    intro r hr owner method desc index helement
    simp only [List.mem_cons, List.not_mem_nil, or_false] at hr
    rcases hr with rfl | rfl | rfl <;> cases helement
    exact .inl ⟨_, List.mem_cons_of_mem _ List.mem_cons_self, rfl⟩
  have hnamed := namedIn_paramOf "m" (some "(La;)V")
  refine ⟨hswitchable, hparams, hnamed, ?_⟩
  obtain ⟨t, t', hmerge, hmerge', hsame⟩ :=
    rekeyed_means_the_same hswitchable hparams (rfl : _ = some "y")
  obtain ⟨d, hd, hd'⟩ := hsame "x" List.mem_cons_self "y"
    (List.mem_cons_of_mem _ List.mem_cons_self) hnamed
  -- what the source itself answers is read off its tree
  have hplain : (dictionary? (paramOf "m" (some "(La;)V"))).map (·.newMethod? "a" "m" "(La;)V") =
      some (some "n") := by cbv
  rw [← hplain, dictionary?, dictionary?, hmerge, hmerge']
  change (Dictionary.ofTree t' "x" "y").toOption.map _ =
    (Dictionary.ofTree t "x" "y").toOption.map _
  rw [hd, hd']

open Sample in
/-- A parameter that leaves out the descriptor of its method, or that is of a method without a
record, keeps the name of the method when its source is keyed by another column. By that name it
then adds another method to the class, or goes to another one. -/
theorem rekeyed_means_otherwise :
    ((paramOf "m" none).Switchable 1 ∧ (paramOf "m" none).NamedIn "x" ∧
      (dictionary? (paramOf "m" none)).map (·.newMethodNamed? "a" "m") = some (some "n") ∧
      (dictionary? ((paramOf "m" none).rekey "y")).map (·.newMethodNamed? "a" "m") = some none) ∧
    ((paramOf "n" (some "(La;)V")).Switchable 1 ∧ (paramOf "n" (some "(La;)V")).NamedIn "x" ∧
      (dictionary? (paramOf "n" (some "(La;)V"))).map (·.newMethodNamed? "a" "n") =
        some (some "n") ∧
      (dictionary? ((paramOf "n" (some "(La;)V")).rekey "y")).map (·.newMethodNamed? "a" "n") =
        some none) :=
  ⟨⟨switchable_paramOf _ _ (.inl rfl), namedIn_paramOf _ _, by cbv, by cbv⟩,
    switchable_paramOf _ _ (.inr rfl), namedIn_paramOf _ _, by cbv, by cbv⟩

end Source

end JarRemap
