import JarRemap.Proofs.Adapt.Rekey
import Mathlib.Data.List.Nodup

/-!
# Keying a source by another column and back

If the key and another column both name the classes and methods of a source, and tell them apart,
nothing is lost when the source is keyed by the other column: keying it by its old key again gives
the source itself. The other names of classes are read back in owners and descriptors, and a
parameter finds the record of its method on both ways.
-/

namespace JarRemap

theorem swapFirst_swapFirst {α : Type} (k : Nat) (l : List α) :
    swapFirst k (swapFirst k l) = l := by
  by_cases hk : k < l.length
  · refine List.ext_getElem? fun i => ?_
    rw [getElem?_swapFirst (by rwa [length_swapFirst]), getElem?_swapFirst hk,
      Equiv.swap_apply_self]
  · have hstays : swapFirst k l = l := by
      rw [swapFirst.eq_def, List.getElem?_eq_none (Nat.le_of_not_lt hk)]
      cases l <;> rfl
    rw [hstays, hstays]

namespace Record

theorem comment_keyedBy (column : Nat) (f : ClassMap) (r : Record) :
    (r.keyedBy column f).comment = r.comment := by
  unfold keyedBy rekeyNames
  split <;> rfl

/-- A parameter, and any other record with a name in the column, exchanges two names. -/
theorem names_keyedBy {column : Nat} (f : ClassMap) {r : Record}
    (h : r.element.isParam = false → (r.name? column).isSome) :
    (r.keyedBy column f).names = swapFirst column r.names := by
  have hexchange : ({ r with element := r.element.renameClasses f } : Record).element.isParam ||
      (r.name? column).isSome := by
    rw [← element_keyedBy column, isParam_keyedBy]
    cases hparam : r.element.isParam with
    | true => rfl
    | false => exact h hparam
  unfold keyedBy rekeyNames
  exact congrArg Record.names (if_pos hexchange)

/-- The class of a record has the other name first. -/
theorem className?_keyedBy {column : Nat} {f : ClassMap} {r : Record}
    (h : r.element.isParam = false → (r.name? column).isSome) (i : Nat) :
    (r.keyedBy column f).className? i = r.className? (Equiv.swap 0 column i) := by
  unfold className?
  rw [element_keyedBy]
  cases helement : r.element with
  | type =>
    have hnamed := h (by rw [helement]; rfl)
    rw [name?_keyedBy hnamed]
    rfl
  | field => rfl
  | method => rfl
  | param => rfl

end Record

namespace Source

/-- A source that can be keyed by another column and back. -/
structure Reversible (s : Source) (column : Nat) : Prop extends s.TwoNamed column where
  namespaces : s.namespaces.Nodup
  /-- No two methods of one owner share a name and a descriptor in one of the columns. -/
  methods : ∀ i ∈ [0, column], (s.records.filterMap (·.memberIn? i .method)).Nodup
  /-- Every parameter is one of a method of the source. -/
  params : ∀ r ∈ s.records, ∀ owner method desc index, r.element = .param owner method desc index →
    ∃ r' ∈ s.records, r'.memberKey? .method = some ⟨owner, method, desc⟩

variable {s : Source} {k : Nat}

section Methods

/-- The entry of a method: its owner, name in a column and descriptor, and its key. -/
def keyedMethod? (column : Nat) (r : Record) :
    Option ((String × String × Option String) × String) :=
  (r.memberIn? column .method).bind fun m => r.key?.map fun key => ((m.owner, m.name, m.desc), key)

theorem rekeyedMethods_eq (column : Nat) (records : List Record) :
    rekeyedMethods column records = .ofList (records.filterMap (keyedMethod? column)) := by
  unfold rekeyedMethods
  congr
  funext r
  unfold keyedMethod? Record.memberIn?
  cases r.element <;> cases r.name? column <;> cases r.key? <;> rfl

/-- If its names in a column tell a method apart, it is found by them. -/
theorem get?_rekeyedMethods {column : Nat} {records : List Record}
    (h : (records.filterMap (·.memberIn? column .method)).Nodup) {r : Record} (hr : r ∈ records)
    {m : MemberKey} (hm : r.memberIn? column .method = some m) {key : String}
    (hkey : r.key? = some key) :
    (rekeyedMethods column records).get? (m.owner, m.name, m.desc) = some key := by
  rw [rekeyedMethods_eq]
  refine OrderedMap.get?_ofList_of_mem (List.mem_filterMap.2 ⟨r, hr, ?_⟩) fun other hother => ?_
  · simp [keyedMethod?, hm, hkey]
  · obtain ⟨r', hr', hentry⟩ := List.mem_filterMap.1 hother
    obtain ⟨m', hm', hkey'⟩ := Option.bind_eq_some_iff.1 hentry
    obtain ⟨found, hfound, heq⟩ := Option.map_eq_some_iff.1 hkey'
    obtain ⟨hsame, rfl⟩ := Prod.mk.inj heq
    obtain rfl : m' = m := by
      cases m'
      cases m
      simpa using hsame
    have hrecord := eq_of_nodup_filterMap h hr' hr hm' hm
    exact Option.some.inj (hfound.symm.trans (hrecord ▸ hkey))

end Methods

namespace TwoNamed

theorem isSome_name? (h : s.TwoNamed k) {r : Record} (hr : r ∈ s.records)
    (hparam : r.element.isParam = false) : (r.name? k).isSome :=
  h.named r hr hparam k (List.mem_cons_of_mem 0 List.mem_cons_self)

theorem className?_rekeyed (h : s.TwoNamed k) {r : Record} (hr : r ∈ s.records) (i : Nat) :
    (s.rekeyed k r).className? i = r.className? (Equiv.swap 0 k i) := by
  rw [← Record.className?_keyedBy (f := s.classMap k) (h.isSome_name? hr)]
  unfold rekeyed renameMethodOf Record.className?
  split
  · next helement =>
    rw [helement]
    rfl
  · rfl

/-- In a source that is keyed by the other column, the names of its old key belong to the classes
whose names they were. -/
theorem classMap_rekeyColumn (h : s.TwoNamed k) :
    (s.rekeyColumn k).classMap k = s.classMapBack k := by
  have hclasses : (s.rekeyColumn k).records.filterMap (·.className? 0) =
      s.records.filterMap (·.className? k) := by
    rw [records_rekeyColumn, List.filterMap_map]
    refine List.filterMap_congr fun r hr => ?_
    rw [Function.comp_apply, h.className?_rekeyed hr, Equiv.swap_apply_left]
  have hnodup := hclasses ▸ h.classes k (List.mem_cons_of_mem 0 List.mem_cons_self)
  funext name
  refine Option.ext fun key => ?_
  rw [Source.classMap_eq_some_iff hnodup, h.classMapBack_eq_some_iff, records_rekeyColumn]
  simp only [List.mem_map, exists_exists_and_eq_and]
  refine exists_congr fun r => and_congr_right fun hr => ?_
  rw [h.className?_rekeyed hr, h.className?_rekeyed hr, Equiv.swap_apply_left,
    Equiv.swap_apply_right]

/-- Owners and descriptors are read back. -/
theorem renameClasses_back (h : s.TwoNamed k) {r : Record} (hr : r ∈ s.records) :
    (r.element.renameClasses (s.classMap k)).renameClasses (s.classMapBack k) = r.element := by
  have howner : ∀ owner, r.element.owner? = some owner →
      (s.classMapBack k).image ((s.classMap k).image owner) = owner :=
    fun owner howner => h.image_classMapBack (.inl (h.owners r hr owner howner))
  have hdesc : ∀ desc, r.element.desc? = desc → (desc.map (Descriptor.rename (s.classMap k))).map
      (Descriptor.rename (s.classMapBack k)) = desc := by
    rintro (_ | desc) hdesc
    · rfl
    · exact congrArg some (h.rename_classMapBack hr hdesc)
  cases helement : r.element with
  | type => rfl
  | field owner desc =>
    rw [helement] at howner hdesc
    simp only [Element.renameClasses, howner owner rfl, hdesc desc rfl]
  | method owner desc =>
    rw [helement] at howner hdesc
    simp only [Element.renameClasses, howner owner rfl, hdesc desc rfl]
  | param owner method desc index =>
    rw [helement] at howner hdesc
    simp only [Element.renameClasses, howner owner rfl, hdesc desc rfl]

end TwoNamed

theorem keyedBy_keyedBy {f g : ClassMap} {r : Record}
    (helement : (r.element.renameClasses f).renameClasses g = r.element)
    (hnamed : r.element.isParam = false → ∀ i ∈ [0, k], (r.name? i).isSome) :
    (r.keyedBy k f).keyedBy k g = r := by
  have hk : r.element.isParam = false → (r.name? k).isSome :=
    fun hparam => hnamed hparam k (List.mem_cons_of_mem 0 List.mem_cons_self)
  have hback : (r.keyedBy k f).element.isParam = false → ((r.keyedBy k f).name? k).isSome := by
    rw [Record.isParam_keyedBy]
    intro hparam
    rw [Record.name?_keyedBy (hk hparam), Equiv.swap_apply_right]
    exact hnamed hparam 0 List.mem_cons_self
  have helement' : ((r.keyedBy k f).keyedBy k g).element = r.element := by
    rw [Record.element_keyedBy, Record.element_keyedBy, helement]
  have hnames : ((r.keyedBy k f).keyedBy k g).names = r.names := by
    rw [Record.names_keyedBy g hback, Record.names_keyedBy f hk, swapFirst_swapFirst]
  have hcomment : ((r.keyedBy k f).keyedBy k g).comment = r.comment := by
    rw [Record.comment_keyedBy, Record.comment_keyedBy]
  exact congr (congr (congrArg Record.mk helement') hnames) hcomment

namespace Reversible

/-- A member under its names, once its source is keyed by the other column. -/
theorem memberIn?_keyedBy (h : s.Reversible k) {r : Record} (hr : r ∈ s.records) :
    (r.keyedBy k (s.classMap k)).memberIn? k .method = (r.memberIn? 0 .method).map fun m =>
      ⟨(s.classMap k).image m.owner, m.name, m.desc.map (Descriptor.rename (s.classMap k))⟩ := by
  unfold Record.memberIn?
  rw [Record.element_keyedBy]
  cases helement : r.element with
  | method owner desc =>
    have hnamed := h.isSome_name? hr (by rw [helement]; rfl)
    simp only [Element.renameClasses]
    rw [Record.name?_keyedBy hnamed, Equiv.swap_apply_right]
    cases r.name? 0 <;> rfl
  | type => rfl
  | field => rfl
  | param => rfl

/-- The names of the old key tell the methods apart under the new names of their owners as well. -/
theorem nodup_keyedBy (h : s.Reversible k) :
    ((s.records.map (·.keyedBy k (s.classMap k))).filterMap (·.memberIn? k .method)).Nodup := by
  have hmembers : (s.records.map (·.keyedBy k (s.classMap k))).filterMap (·.memberIn? k .method) =
      (s.records.filterMap (·.memberIn? 0 .method)).map fun m =>
        ⟨(s.classMap k).image m.owner, m.name,
          m.desc.map (Descriptor.rename (s.classMap k))⟩ := by
    rw [List.filterMap_map, List.map_filterMap]
    exact List.filterMap_congr fun r hr => h.memberIn?_keyedBy hr
  rw [hmembers]
  refine List.Nodup.map_on ?_ (h.methods 0 List.mem_cons_self)
  intro m hm m' hm' hsame
  obtain ⟨r, hr, hkey⟩ := List.mem_filterMap.1 hm
  obtain ⟨r', hr', hkey'⟩ := List.mem_filterMap.1 hm'
  rw [Record.memberIn?_zero] at hkey hkey'
  obtain ⟨-, howner, hdesc⟩ := Record.memberKey?_eq_some hkey
  obtain ⟨-, howner', hdesc'⟩ := Record.memberKey?_eq_some hkey'
  obtain ⟨hsameOwner, hsameName, hsameDesc⟩ := MemberKey.mk.inj hsame
  have howners := (h.image_classMap_inj (.inl (h.owners r hr m.owner howner))
    (.inl (h.owners r' hr' m'.owner howner'))).1 hsameOwner
  have hdescs := h.desc_inj (fun d hd => ⟨r, hr, hdesc.trans hd⟩)
    (fun d hd => ⟨r', hr', hdesc'.trans hd⟩) hsameDesc
  cases m
  cases m'
  simp_all

/-- A parameter gets the other name of its method. -/
theorem exists_rekeyed_param (h : s.Reversible k) {r : Record} (hr : r ∈ s.records)
    {owner method : String} {desc : Option String} {index : UInt16}
    (helement : r.element = .param owner method desc index) :
    ∃ r' ∈ s.records, ∃ name, r'.memberKey? .method = some ⟨owner, method, desc⟩ ∧
      r'.name? k = some name ∧
      s.rekeyed k r =
        { r with element := .param owner name desc index }.keyedBy k (s.classMap k) := by
  obtain ⟨r', hr', hkey⟩ := h.params r hr owner method desc index helement
  have hmember := (Record.mentions?_of_memberKey? hkey).2
  obtain ⟨name, hname⟩ := Option.isSome_iff_exists.1 (h.isSome_name? hr' hmember)
  refine ⟨r', hr', name, hkey, hname, ?_⟩
  have hin : (r'.keyedBy k (s.classMap k)).memberIn? k .method =
      some ⟨(s.classMap k).image owner, method,
        desc.map (Descriptor.rename (s.classMap k))⟩ := by
    rw [h.memberIn?_keyedBy hr', Record.memberIn?_zero, hkey, Option.map_some]
  have hnew : (r'.keyedBy k (s.classMap k)).key? = some name := by
    rw [Record.key?, Record.name?_keyedBy (by rw [hname]; rfl), Equiv.swap_apply_left, hname]
  have hget := get?_rekeyedMethods h.nodup_keyedBy (List.mem_map_of_mem hr') hin hnew
  rw [rekeyed, renameMethodOf, Record.element_keyedBy, helement]
  simp only [Element.renameClasses, hget, Option.getD_some]
  simp [Record.keyedBy, Record.rekeyNames, Element.renameClasses, Element.isParam, helement]

/-- Every record is read back, but for the name that a parameter gives to its method. -/
theorem keyedBy_rekeyed (h : s.Reversible k) {r : Record} (hr : r ∈ s.records) :
    ((s.rekeyed k r).keyedBy k (s.classMapBack k)).memberIn? k .method = r.memberIn? k .method ∧
      (r.element.isParam = false → (s.rekeyed k r).keyedBy k (s.classMapBack k) = r) := by
  have hback : r.element.isParam = false →
      (s.rekeyed k r).keyedBy k (s.classMapBack k) = r := by
    intro hparam
    rw [rekeyed_of_not_isParam hparam]
    exact keyedBy_keyedBy (h.renameClasses_back hr) (h.named r hr)
  refine ⟨?_, hback⟩
  cases hparam : r.element.isParam with
  | false => rw [hback hparam]
  | true =>
    have hnone : ∀ {r : Record}, r.element.isParam = true → r.memberIn? k .method = none := by
      intro r hparam
      unfold Record.memberIn?
      cases helement : r.element <;> simp_all [Element.isParam]
    rw [hnone hparam, hnone]
    rw [Record.isParam_keyedBy, isParam_rekeyed, hparam]

/-- A record that is keyed by the other column and back is as it was. -/
theorem rekeyed_rekeyed (h : s.Reversible k) {r : Record} (hr : r ∈ s.records) :
    (s.rekeyColumn k).rekeyed k (s.rekeyed k r) = r := by
  cases hparam : r.element.isParam with
  | false =>
    rw [rekeyed_of_not_isParam (by rw [isParam_rekeyed, hparam]), h.classMap_rekeyColumn]
    exact (h.keyedBy_rekeyed hr).2 hparam
  | true =>
    obtain ⟨owner, method, desc, index, helement⟩ :
        ∃ owner method desc index, r.element = .param owner method desc index := by
      cases helement : r.element <;> simp_all [Element.isParam]
    obtain ⟨r', hr', name, hkey, hname, hrekeyed⟩ := h.exists_rekeyed_param hr helement
    have hmember := (Record.mentions?_of_memberKey? hkey).2
    -- the methods by their other names are those of the source itself
    have hnodup : (((s.rekeyColumn k).records.map
        (·.keyedBy k (s.classMapBack k))).filterMap (·.memberIn? k .method)).Nodup := by
      rw [records_rekeyColumn, List.map_map, List.filterMap_map]
      have hsame : ∀ r ∈ s.records, ((fun r : Record => r.memberIn? k .method) ∘
          ((·.keyedBy k (s.classMapBack k)) ∘ s.rekeyed k)) r = r.memberIn? k .method :=
        fun r hr => (h.keyedBy_rekeyed hr).1
      rw [List.filterMap_congr hsame]
      exact h.methods k (List.mem_cons_of_mem 0 List.mem_cons_self)
    have hmem : r' ∈ (s.rekeyColumn k).records.map (·.keyedBy k (s.classMapBack k)) := by
      rw [records_rekeyColumn, List.map_map]
      exact List.mem_map.2 ⟨r', hr', (h.keyedBy_rekeyed hr').2 hmember⟩
    have hget := get?_rekeyedMethods hnodup hmem (Record.memberIn?_of_memberKey? hkey hname)
      (Record.memberKey?_eq_some hkey).1
    have hback : ({ r with element := .param owner name desc index }.keyedBy k
        (s.classMap k)).keyedBy k (s.classMapBack k) =
          { r with element := .param owner name desc index } := by
      refine keyedBy_keyedBy ?_ fun hfalse => by cases hfalse
      have hclasses := h.renameClasses_back hr
      rw [helement] at hclasses
      simpa [Element.renameClasses] using hclasses
    rw [hrekeyed, rekeyed, h.classMap_rekeyColumn, hback, renameMethodOf]
    simp only [hget, Option.getD_some, ← helement]

end Reversible

/-- Keying a source by another column, and then by its old key again, gives the source itself. -/
theorem rekey_rekey {namespaceName : String} (h : s.Reversible k)
    (hname : s.namespaces[k]? = some namespaceName) :
    (s.rekey namespaceName).rekey s.key = s := by
  rcases Nat.eq_zero_or_pos k with rfl | hpos
  · have hkey : s.key = namespaceName := by
      rw [namespaces, List.getElem?_cons_zero] at hname
      exact Option.some.inj hname
    have hstays : s.rekey namespaceName = s := if_pos hkey
    rw [hstays]
    exact if_pos rfl
  · have hlt : k < s.namespaces.length := (List.getElem?_eq_some_iff.1 hname).1
    have hnamespaces := namespaces_rekeyColumn (s := s) (k := k) hlt
    have hback : (s.rekeyColumn k).namespaces[k]? = some s.key := by
      rw [hnamespaces, getElem?_swapFirst hlt, Equiv.swap_apply_right]
      rfl
    have hlt' : k < (s.rekeyColumn k).namespaces.length := (List.getElem?_eq_some_iff.1 hback).1
    rw [rekey_of_getElem? h.namespaces hpos hname,
      rekey_of_getElem? (hnamespaces ▸ nodup_swapFirst hlt h.namespaces) hpos hback]
    have hrecords : ((s.rekeyColumn k).rekeyColumn k).records = s.records := by
      rw [records_rekeyColumn, records_rekeyColumn, List.map_map]
      exact (List.map_congr_left fun r hr => h.rekeyed_rekeyed hr).trans (List.map_id _)
    have hcolumns := namespaces_rekeyColumn (s := s.rekeyColumn k) (k := k) hlt'
    rw [hnamespaces, swapFirst_swapFirst] at hcolumns
    obtain ⟨hkey, hdestinations⟩ := List.cons.inj hcolumns
    have hlineage : ((s.rekeyColumn k).rekeyColumn k).lineage = s.lineage := rfl
    exact congr (congr (congr (congrArg Source.mk hkey) hdestinations) hlineage) hrecords

namespace Sample

/-- Two classes that exchange their names, with overloaded methods and a parameter of one. -/
def exchanged : Source :=
  ⟨"x", ["y", "z"], ["x", "y", "z"],
    [⟨.type, [some "a", some "b", none], none⟩,
      ⟨.type, [some "b", some "a", some "c"], some "text"⟩,
      ⟨.method "a" (some "(La;)V"), [some "m", some "n", none], none⟩,
      ⟨.method "a" (some "(Lb;)V"), [some "m", some "m", some "o"], none⟩,
      ⟨.param "a" "m" (some "(La;)V") 1, [none, none, some "first"], none⟩]⟩

theorem reversible_exchanged : exchanged.Reversible 1 := by
  have hfirst : Descriptor.classNames "(La;)V" = ["a"] := by cbv
  have hsecond : Descriptor.classNames "(Lb;)V" = ["b"] := by cbv
  have ha : exchanged.HasClass 0 "a" := ⟨_, List.mem_cons_self, by decide⟩
  have hb : exchanged.HasClass 0 "b" :=
    ⟨_, List.mem_cons_of_mem _ List.mem_cons_self, by decide⟩
  refine ⟨⟨?_, ?_, ?_, ?_, ?_⟩, ?_, ?_, ?_⟩
  · simp [exchanged, Element.isParam, Record.name?]
  · simp [exchanged, Record.className?, Record.name?]
  · simpa [exchanged, Element.owner?] using ha
  · rintro name ⟨r, hr, hclass⟩
    simp only [exchanged, List.mem_cons, List.not_mem_nil, or_false] at hr
    rcases hr with rfl | rfl | rfl | rfl | rfl <;>
      simp [Record.className?, Record.name?] at hclass <;> subst hclass <;> decide
  · intro r hr desc hdesc mentioned hmentioned
    simp only [exchanged, List.mem_cons, List.not_mem_nil, or_false] at hr
    have hknown : mentioned = "a" ∨ mentioned = "b" := by
      rcases hr with rfl | rfl | rfl | rfl | rfl <;> cases hdesc <;> simp_all
    rcases hknown with rfl | rfl
    · exact .inl ha
    · exact .inl hb
  · simp [exchanged, namespaces]
  · simp [exchanged, Record.memberIn?, Record.name?]
  · intro r hr owner method desc index helement
    simp only [exchanged, List.mem_cons, List.not_mem_nil, or_false] at hr
    rcases hr with rfl | rfl | rfl | rfl | rfl <;> cases helement
    exact ⟨_, List.mem_of_getElem? (i := 2) rfl, rfl⟩

end Sample

open Sample in
/-- Keyed by the other column the source is another one, and back it is the same. -/
theorem rekey_rekey_exchanged :
    exchanged.Reversible 1 ∧ exchanged.namespaces[1]? = some "y" ∧
      exchanged.rekey "y" ≠ exchanged ∧ (exchanged.rekey "y").rekey "x" = exchanged :=
  ⟨reversible_exchanged, rfl, by decide, rekey_rekey reversible_exchanged rfl⟩

end Source

end JarRemap
