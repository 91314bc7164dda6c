import JarRemap.Dictionary
import JarRemap.Proofs.Merge.Record

/-!
# Sources that only annotate

A source that is not keyed by the source namespace adds nothing to the tree. If the members of a
class can be told apart by their key names and descriptors, each of its records is a change of the
members it speaks of, so that all of them together are a map over the members.
-/

namespace JarRemap

/-- The kinds of members a class has. -/
inductive MemberKind where
  | field
  | method
deriving DecidableEq, Repr

/-- What a field and a method have in common. -/
structure MemberMapping where
  names : Names
  desc : Option String
deriving DecidableEq, Repr

/-- A field as a member. -/
def FieldMapping.member (f : FieldMapping) : MemberMapping := ⟨f.names, f.desc⟩

/-- A method as a member. -/
def MethodMapping.member (m : MethodMapping) : MemberMapping := ⟨m.names, m.desc⟩

/-- The member with what a record says of its names. -/
def MemberMapping.name (columns : List Nat) (r : Record) (m : MemberMapping) : MemberMapping :=
  { m with names := m.names.write columns r 1 }

namespace Record

/-- The member that a record speaks of, in the namespace of its key. -/
def memberKey? (kind : MemberKind) (r : Record) : Option MemberKey :=
  match kind, r.element with
  | .field, .field owner desc => r.key?.map fun key => ⟨owner, key, desc⟩
  | .method, .method owner desc => r.key?.map fun key => ⟨owner, key, desc⟩
  | _, _ => none

/-- Whether a record speaks of a member, given that it speaks of its class. -/
def speaksOf (v : KeyView) (kind : MemberKind) (r : Record) (m : MemberMapping) : Bool :=
  match r.memberKey? kind with
  | none => false
  | some key =>
      m.names.get? v.column == some key.name && descriptorsFit m.desc (key.desc.map v.sourceDesc)

end Record

namespace ClassMapping

/-- The members of a kind. -/
def members (kind : MemberKind) (c : ClassMapping) : List MemberMapping :=
  match kind with
  | .field => c.fields.map (·.member)
  | .method => c.methods.map (·.member)

/-- All members have a descriptor, and no two of a kind share it together with the name in a
column. -/
structure Distinct (column : Nat) (c : ClassMapping) : Prop where
  described : ∀ kind, ∀ m ∈ c.members kind, m.desc.isSome
  distinct : ∀ kind, ((c.members kind).map fun m => (m.names.get? column, m.desc)).Nodup

end ClassMapping

/-- Changing the first element that fits is changing all that fit, if there is one at most. -/
theorem modify_findIdx?_eq_map {α : Type} {p : α → Bool} (f : α → α) {l : List α}
    (h : l.Pairwise fun a b => ¬ (p a = true ∧ p b = true)) {i : Nat}
    (hi : l.findIdx? p = some i) : l.modify i f = l.map fun a => if p a then f a else a := by
  induction l generalizing i with
  | nil => cases hi
  | cons a l ih =>
    rw [List.pairwise_cons] at h
    rw [List.findIdx?_cons] at hi
    cases ha : p a with
    | true =>
      rw [ha, if_pos rfl] at hi
      cases hi
      have hrest : l.map (fun b => if p b then f b else b) = l.map id := by
        refine List.map_congr_left fun b hb => ?_
        rw [if_neg fun hpb => h.1 b hb ⟨ha, hpb⟩]
        rfl
      rw [List.modify_zero_cons, List.map_cons, ha, if_pos rfl, hrest, List.map_id]
    | false =>
      rw [ha, if_neg Bool.false_ne_true] at hi
      obtain ⟨j, hj, rfl⟩ := Option.map_eq_some_iff.1 hi
      rw [List.modify_succ_cons, List.map_cons, ha, if_neg Bool.false_ne_true, ih h.2 hj]

theorem map_ite_of_findIdx?_eq_none {α : Type} {p : α → Bool} (f : α → α) {l : List α}
    (h : l.findIdx? p = none) : (l.map fun a => if p a then f a else a) = l := by
  rw [List.findIdx?_eq_none_iff] at h
  have hsame : l.map (fun a => if p a then f a else a) = l.map id := by
    refine List.map_congr_left fun a ha => ?_
    rw [h a ha, if_neg Bool.false_ne_true]
    rfl
  rw [hsame, List.map_id]

namespace ClassMapping

variable {v : KeyView} {columns : List Nat} {r : Record} {c : ClassMapping} {desc : Option String}

theorem annotateField_eq {key : String} (hv : v.creates = false) (hkey : r.key? = some key)
    (h : c.fields.Pairwise fun a b =>
      ¬ (a.isFor v.column key desc = true ∧ b.isFor v.column key desc = true)) :
    c.annotateField v columns desc r = { c with
      fields := c.fields.map fun f =>
        if f.isFor v.column key desc then f.annotate columns desc r else f } := by
  unfold annotateField
  rw [hkey]
  dsimp only
  split
  · next i hi => rw [modify_findIdx?_eq_map _ h hi]
  · next hnone => rw [hv, if_neg Bool.false_ne_true, map_ite_of_findIdx?_eq_none _ hnone]

theorem annotateMethod_eq {key : String} (hv : v.creates = false) (hkey : r.key? = some key)
    (h : c.methods.Pairwise fun a b =>
      ¬ (a.isFor v.column key desc = true ∧ b.isFor v.column key desc = true)) :
    c.annotateMethod v columns desc r = { c with
      methods := c.methods.map fun m =>
        if m.isFor v.column key desc then m.annotate columns desc r else m } := by
  unfold annotateMethod
  rw [hkey]
  dsimp only
  split
  · next i hi => rw [modify_findIdx?_eq_map _ h hi]
  · next hnone => rw [hv, if_neg Bool.false_ne_true, map_ite_of_findIdx?_eq_none _ hnone]

/-- A record of a field changes neither the names of the class nor its methods. -/
theorem annotateField_frame (r : Record) :
    (c.annotateField v columns desc r).names = c.names ∧
      (c.annotateField v columns desc r).members .method = c.members .method := by
  unfold annotateField
  split
  · exact ⟨rfl, rfl⟩
  · split
    · exact ⟨rfl, rfl⟩
    · split <;> exact ⟨rfl, rfl⟩

/-- A record of a method changes neither the names of the class nor its fields. -/
theorem annotateMethod_frame (r : Record) :
    (c.annotateMethod v columns desc r).names = c.names ∧
      (c.annotateMethod v columns desc r).members .field = c.members .field := by
  unfold annotateMethod
  split
  · exact ⟨rfl, rfl⟩
  · split
    · exact ⟨rfl, rfl⟩
    · split <;> exact ⟨rfl, rfl⟩

/-- A record of a parameter does not change the names of the class. -/
theorem names_annotateParam (method : String) (index : UInt16) :
    (c.annotateParam v columns method desc index r).names = c.names := by
  unfold annotateParam
  split
  · rfl
  · split <;> rfl

/-- A record of a parameter changes no name and no descriptor of a member. -/
theorem members_annotateParam (hv : v.creates = false) (method : String) (index : UInt16)
    (kind : MemberKind) :
    (c.annotateParam v columns method desc index r).members kind = c.members kind := by
  unfold annotateParam
  split
  · cases kind with
    | field => rfl
    | method =>
      exact map_modify_of_eq (f := MethodMapping.annotateParam columns index r)
        (g := MethodMapping.member) (fun _ => rfl) _ _
  · rw [hv, if_neg Bool.false_ne_true]

end ClassMapping

namespace Record

variable {v : KeyView} {columns : List Nat} {kind : MemberKind} {c : ClassMapping}

/-- All members a record of this source speaks of come with a descriptor. -/
def Described (r : Record) : Prop := ∀ kind key, r.memberKey? kind = some key → key.desc.isSome

theorem speaksOf_iff {r : Record} {m : MemberMapping} {owner name desc : String} {found : String}
    (hkey : r.memberKey? kind = some ⟨owner, name, some desc⟩) (hm : m.desc = some found) :
    r.speaksOf v kind m = true ↔
      m.names.get? v.column = some name ∧ found = v.sourceDesc desc := by
  rw [speaksOf, hkey, hm]
  simp [descriptorsFit]

/-- Of the members of a class a record speaks of one at most. -/
theorem pairwise_speaksOf (kind : MemberKind) {r : Record} (hr : r.Described) (hc : c.Distinct v.column) :
    (c.members kind).Pairwise fun a b =>
      ¬ (r.speaksOf v kind a = true ∧ r.speaksOf v kind b = true) := by
  have hdistinct := List.pairwise_map.1 (hc.distinct kind)
  refine hdistinct.imp_of_mem fun {a b} ha hb hne => ?_
  cases hkey : r.memberKey? kind with
  | none => simp [speaksOf, hkey]
  | some key =>
    obtain ⟨owner, name, desc⟩ := key
    obtain ⟨desc, rfl⟩ := Option.isSome_iff_exists.1 (hr kind _ hkey)
    obtain ⟨found, hfound⟩ := Option.isSome_iff_exists.1 (hc.described kind a ha)
    obtain ⟨other, hother⟩ := Option.isSome_iff_exists.1 (hc.described kind b hb)
    rw [speaksOf_iff hkey hfound, speaksOf_iff hkey hother]
    rintro ⟨⟨hname, rfl⟩, hname', rfl⟩
    exact hne (by rw [hname, hname', hfound, hother])

theorem map_speaksOf_of_none {r : Record} (h : r.memberKey? kind = none) (members : List MemberMapping) :
    (members.map fun m => if r.speaksOf v kind m then m.name columns r else m) = members := by
  simp [speaksOf, h]

theorem member_annotate_field {desc : Option String} {r : Record} {f : FieldMapping}
    (hf : f.desc.isSome) : (f.annotate columns desc r).member = f.member.name columns r := by
  obtain ⟨found, hfound⟩ := Option.isSome_iff_exists.1 hf
  simp [FieldMapping.annotate, FieldMapping.member, MemberMapping.name, hfound]

theorem member_annotate_method {desc : Option String} {r : Record} {m : MethodMapping}
    (hm : m.desc.isSome) : (m.annotate columns desc r).member = m.member.name columns r := by
  obtain ⟨found, hfound⟩ := Option.isSome_iff_exists.1 hm
  simp [MethodMapping.annotate, MethodMapping.member, MemberMapping.name, hfound]

/-- A record of a field changes the fields it speaks of. -/
theorem members_annotateField {r : Record} {owner : String} {desc : Option String}
    (helement : r.element = .field owner desc) (hv : v.creates = false) (hr : r.Described)
    (hc : c.Distinct v.column) :
    (c.annotateField v columns (desc.map v.sourceDesc) r).members .field =
      (c.members .field).map fun m => if r.speaksOf v .field m then m.name columns r else m := by
  cases hkey : r.key? with
  | none =>
    rw [map_speaksOf_of_none (by simp [memberKey?, helement, hkey])]
    simp [ClassMapping.annotateField, hkey]
  | some key =>
    have hfor : ∀ f : FieldMapping,
        f.isFor v.column key (desc.map v.sourceDesc) = r.speaksOf v .field f.member := by
      intro f
      simp [speaksOf, memberKey?, helement, hkey, FieldMapping.isFor, FieldMapping.member]
    have hone := List.pairwise_map.1 (pairwise_speaksOf .field hr hc)
    simp only [← hfor] at hone
    rw [ClassMapping.annotateField_eq hv hkey hone]
    simp only [ClassMapping.members, List.map_map]
    refine List.map_congr_left fun f hf => ?_
    simp only [Function.comp_apply, hfor]
    split
    · exact member_annotate_field (hc.described .field _ (List.mem_map_of_mem hf))
    · rfl

/-- A record of a method changes the methods it speaks of. -/
theorem members_annotateMethod {r : Record} {owner : String} {desc : Option String}
    (helement : r.element = .method owner desc) (hv : v.creates = false) (hr : r.Described)
    (hc : c.Distinct v.column) :
    (c.annotateMethod v columns (desc.map v.sourceDesc) r).members .method =
      (c.members .method).map fun m => if r.speaksOf v .method m then m.name columns r else m := by
  cases hkey : r.key? with
  | none =>
    rw [map_speaksOf_of_none (by simp [memberKey?, helement, hkey])]
    simp [ClassMapping.annotateMethod, hkey]
  | some key =>
    have hfor : ∀ m : MethodMapping,
        m.isFor v.column key (desc.map v.sourceDesc) = r.speaksOf v .method m.member := by
      intro m
      simp [speaksOf, memberKey?, helement, hkey, MethodMapping.isFor, MethodMapping.member]
    have hone := List.pairwise_map.1 (pairwise_speaksOf .method hr hc)
    simp only [← hfor] at hone
    rw [ClassMapping.annotateMethod_eq hv hkey hone]
    simp only [ClassMapping.members, List.map_map]
    refine List.map_congr_left fun m hm => ?_
    simp only [Function.comp_apply, hfor]
    split
    · exact member_annotate_method (hc.described .method _ (List.mem_map_of_mem hm))
    · rfl

/-- What a record of a source that only annotates makes of the members of a class. -/
theorem members_change {r : Record} (hv : v.creates = false) (hr : r.Described)
    (hc : c.Distinct v.column) (kind : MemberKind) :
    (r.change v columns c).members kind =
      (c.members kind).map fun m => if r.speaksOf v kind m then m.name columns r else m := by
  unfold change
  cases helement : r.element with
  | type =>
    rw [map_speaksOf_of_none (by cases kind <;> simp [memberKey?, helement])]
    cases kind <;> rfl
  | field owner desc =>
    cases kind with
    | field => exact members_annotateField helement hv hr hc
    | method =>
      rw [map_speaksOf_of_none (by simp [memberKey?, helement])]
      exact (ClassMapping.annotateField_frame r).2
  | method owner desc =>
    cases kind with
    | field =>
      rw [map_speaksOf_of_none (by simp [memberKey?, helement])]
      exact (ClassMapping.annotateMethod_frame r).2
    | method => exact members_annotateMethod helement hv hr hc
  | param owner method desc index =>
    rw [map_speaksOf_of_none (by cases kind <;> simp [memberKey?, helement])]
    exact ClassMapping.members_annotateParam hv method index kind

/-- What a record makes of the names of a class. -/
theorem names_change (r : Record) :
    (r.change v columns c).names =
      if r.element = .type then c.names.write columns r 1 else c.names := by
  unfold change
  cases helement : r.element with
  | type => rfl
  | field owner desc => exact (ClassMapping.annotateField_frame r).1
  | method owner desc => exact (ClassMapping.annotateMethod_frame r).1
  | param owner method desc index => exact ClassMapping.names_annotateParam method index

/-- Naming a member keeps what it is told apart by, unless the record writes the key itself. -/
theorem speaksOf_name {r' : Record} (hcolumn : v.column ∉ columns.drop 1) (r : Record)
    (m : MemberMapping) : r'.speaksOf v kind (m.name columns r) = r'.speaksOf v kind m := by
  unfold speaksOf MemberMapping.name
  rw [Names.get?_write_of_not_mem hcolumn]

/-- Records of a source that only annotates keep members apart. -/
theorem distinct_change {r : Record} (hv : v.creates = false) (hr : r.Described)
    (hcolumn : v.column ∉ columns.drop 1) (hc : c.Distinct v.column) :
    (r.change v columns c).Distinct v.column := by
  constructor
  · intro kind changed hchanged
    rw [members_change hv hr hc] at hchanged
    obtain ⟨m, hm, rfl⟩ := List.mem_map.1 hchanged
    have hdesc := hc.described kind m hm
    split <;> exact hdesc
  · intro kind
    rw [members_change hv hr hc, List.map_map]
    have hsame : ((fun m : MemberMapping => (m.names.get? v.column, m.desc)) ∘
        fun m => if r.speaksOf v kind m then m.name columns r else m) =
        fun m => (m.names.get? v.column, m.desc) := by
      funext m
      simp only [Function.comp_apply]
      split
      · rw [MemberMapping.name, Names.get?_write_of_not_mem hcolumn]
      · rfl
    rw [hsame]
    exact hc.distinct kind

/-- All records of a class at once: each member gets what the records that speak of it say. -/
theorem members_foldl_change {records : List Record} (hv : v.creates = false)
    (hrecords : ∀ r ∈ records, r.Described) (hcolumn : v.column ∉ columns.drop 1)
    (hc : c.Distinct v.column) (kind : MemberKind) :
    (records.foldl (fun c r => r.change v columns c) c).members kind =
      (c.members kind).map fun m =>
        (records.filter (·.speaksOf v kind m)).foldl (fun m r => m.name columns r) m := by
  induction records generalizing c with
  | nil => simp
  | cons r records ih =>
    have hr := hrecords r List.mem_cons_self
    rw [List.foldl_cons, ih (fun r' hr' => hrecords r' (List.mem_cons_of_mem r hr'))
      (distinct_change hv hr hcolumn hc), members_change hv hr hc, List.map_map]
    refine List.map_congr_left fun m _ => ?_
    simp only [Function.comp_apply]
    cases hspeaks : r.speaksOf v kind m with
    | true =>
      rw [if_pos rfl, List.filter_cons, if_pos hspeaks, List.foldl_cons]
      simp only [speaksOf_name hcolumn]
    | false =>
      rw [if_neg Bool.false_ne_true, List.filter_cons, hspeaks, if_neg Bool.false_ne_true]

/-- All records of a class at once: its names are what the class records say. -/
theorem names_foldl_change (records : List Record) :
    (records.foldl (fun c r => r.change v columns c) c).names =
      (records.filter (·.element = .type)).foldl (fun names r => names.write columns r 1)
        c.names := by
  induction records generalizing c with
  | nil => rfl
  | cons r records ih =>
    rw [List.foldl_cons, ih, names_change]
    by_cases htype : r.element = .type
    · rw [if_pos htype, List.filter_cons, if_pos (by simp [htype]), List.foldl_cons]
    · rw [if_neg htype, List.filter_cons, if_neg (by simp [htype])]

end Record

/-- A table whose values are changed one by one, in its keys. -/
theorem OrderedMap.get?_eq_map_of_entries {κ ν : Type} [DecidableEq κ] {m m' : OrderedMap κ ν}
    {f : κ → ν → ν} (h : m'.entries = m.entries.map fun e => (e.1, f e.1 e.2)) (k : κ) :
    m'.get? k = (m.get? k).map (f k) := by
  rw [get?, h, find?_map_of_fst (f := fun e => (e.1, f e.1 e.2)) (fun _ => rfl), get?]
  cases hfound : m.entries.find? fun e => e.1 = k with
  | none => rfl
  | some e =>
    have hkey : e.1 = k := by simpa using List.find?_some hfound
    subst hkey
    rfl

namespace MappingTree

variable {v : KeyView} {columns : List Nat} {classes : OrderedMap String ClassMapping}

theorem exists_class?_of_owner? {r : Record} {name : String} (h : r.owner? v = some name) :
    ∃ key, v.class? key = some name := by
  unfold Record.owner? at h
  split at h
  · obtain ⟨key, -, hkey⟩ := Option.bind_eq_some_iff.1 h
    exact ⟨key, hkey⟩
  all_goals exact ⟨_, h⟩

theorem keys_insertNew_of_isSome {name : String} (h : (classes.get? name).isSome)
    (c : ClassMapping) : classes.insertNew name c = classes := by
  rw [OrderedMap.insertNew, dif_pos (by rw [OrderedMap.contains_eq_isSome_get?, h])]

/-- A record that speaks of a class that is there adds none. -/
theorem apply_of_isSome {r : Record} {name : String} (howner : r.owner? v = some name)
    (h : (classes.get? name).isSome) :
    apply v columns classes r = classes.modify name (r.change v columns) := by
  rw [apply_eq, howner]
  dsimp only
  rw [keys_insertNew_of_isSome h, ite_self]

theorem isSome_get?_apply {name : String} (h : (classes.get? name).isSome) (r : Record) :
    ((apply v columns classes r).get? name).isSome := by
  rw [get?_apply]
  split
  · rw [Option.isSome_map, ownerIn, Option.isSome_or, h, Bool.true_or]
  · exact h

theorem entries_apply {r : Record}
    (h : ∀ name, r.owner? v = some name → (classes.get? name).isSome) :
    (apply v columns classes r).entries = classes.entries.map fun e =>
      (e.1, if r.owner? v = some e.1 then r.change v columns e.2 else e.2) := by
  cases hname : r.owner? v with
  | none =>
    rw [apply_eq, hname]
    simp
  | some name =>
    rw [apply_of_isSome hname (h name hname)]
    refine List.map_congr_left fun e _ => ?_
    by_cases he : e.1 = name
    · rw [if_pos he, if_pos (by rw [he])]
    · rw [if_neg he, if_neg fun hsame => he (Option.some.inj hsame).symm]

theorem keys_apply {r : Record}
    (h : ∀ name, r.owner? v = some name → (classes.get? name).isSome) :
    (apply v columns classes r).keys = classes.keys := by
  rw [OrderedMap.keys, entries_apply h, List.map_map]
  rfl

/-- Records whose classes are all there change each class by those that speak of it. -/
theorem entries_foldl_apply {records : List Record}
    (h : ∀ r ∈ records, ∀ name, r.owner? v = some name → (classes.get? name).isSome) :
    (records.foldl (apply v columns) classes).entries = classes.entries.map fun e =>
      (e.1, (records.filter (·.owner? v = some e.1)).foldl (fun c r => r.change v columns c)
        e.2) := by
  induction records generalizing classes with
  | nil => simp
  | cons r records ih =>
    have hrest : ∀ r' ∈ records, ∀ name, r'.owner? v = some name →
        ((apply v columns classes r).get? name).isSome :=
      fun r' hr' name howner => isSome_get?_apply (h r' (List.mem_cons_of_mem r hr') name howner) r
    rw [List.foldl_cons, ih hrest, entries_apply (h r List.mem_cons_self), List.map_map]
    refine List.map_congr_left fun e _ => ?_
    by_cases howner : r.owner? v = some e.1
    · simp [howner]
    · simp [howner]

theorem isSome_of_owner? (hknown : ∀ key name, v.class? key = some name →
      (classes.get? name).isSome) {r : Record} {name : String} (howner : r.owner? v = some name) :
    (classes.get? name).isSome := by
  obtain ⟨key, hkey⟩ := exists_class?_of_owner? howner
  exact hknown key name hkey

theorem keys_foldl_apply (hknown : ∀ key name, v.class? key = some name →
      (classes.get? name).isSome) (records : List Record) :
    (records.foldl (apply v columns) classes).keys = classes.keys := by
  rw [OrderedMap.keys, entries_foldl_apply fun r _ name => isSome_of_owner? hknown, List.map_map]
  rfl

/-- A source whose classes are all there changes each class by the records that speak of it. -/
theorem get?_foldl_apply (hknown : ∀ key name, v.class? key = some name →
      (classes.get? name).isSome) (records : List Record) (name : String) :
    (records.foldl (apply v columns) classes).get? name = (classes.get? name).map fun c =>
      (records.filter (·.owner? v = some name)).foldl (fun c r => r.change v columns c) c := by
  exact OrderedMap.get?_eq_map_of_entries
    (f := fun name c =>
      (records.filter (·.owner? v = some name)).foldl (fun c r => r.change v columns c) c)
    (entries_foldl_apply fun r _ name => isSome_of_owner? hknown) name

end MappingTree

end JarRemap
