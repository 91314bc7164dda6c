import JarRemap.Proofs.Descriptor.Compose
import JarRemap.Proofs.Dictionary.Lookup
import Mathlib.Data.List.Nodup
import Mathlib.Data.List.Pairwise

/-!
# Names that tell everything apart

If the names of a column tell the classes and members of a tree apart, a dictionary from this column
finds exactly what the tree has: a class under its name, and a member under the names of its class
and its own with its descriptor, or with any descriptor if it has none. A descriptor of the tree
comes back from the column, so that two members never get the same one there.
-/

namespace JarRemap

namespace OrderedMap

variable {κ ν : Type} [DecidableEq κ]

theorem get?_ofList_map {α : Type} (key : α → κ) (value : α → ν) (l : List α) (k : κ) :
    (ofList (l.map fun a => (key a, value a))).get? k =
      (l.reverse.find? fun a => key a = k).map value := by
  rw [ofList, get?_insertAll, get?_empty, Option.or_none, ← List.map_reverse, List.find?_map,
    Option.map_map]
  rfl

end OrderedMap

namespace MappingTree

def BearsName (t : MappingTree) (column : Nat) (name : String) : Prop :=
  ∃ c ∈ t.classes.values, c.names.get? column = some name

instance (t : MappingTree) (column : Nat) (name : String) : Decidable (t.BearsName column name) :=
  inferInstanceAs (Decidable (∃ c ∈ t.classes.values, c.names.get? column = some name))

/-- Every class, field and method has a name in a column. -/
structure Named (t : MappingTree) (column : Nat) : Prop where
  classes : ∀ c ∈ t.classes.values, (c.names.get? column).isSome
  members : ∀ c ∈ t.classes.values, ∀ kind, ∀ m ∈ c.members kind, (m.names.get? column).isSome

/-- The names of a column tell everything in a tree apart. -/
structure Apart (t : MappingTree) (column : Nat) : Prop extends t.Named column where
  /-- No two classes share a name. -/
  distinct : (t.classes.values.map fun c => c.names.get? column).Nodup
  unbroken : ∀ name, t.BearsName column name → ';' ∉ name.toList
  /-- No two members of a class share a name, unless both have a descriptor and not the same. -/
  overloads : ∀ c ∈ t.classes.values, ∀ kind, (c.members kind).Pairwise fun m m' =>
    ¬ (m.names.get? column = m'.names.get? column ∧ descriptorsFit m.desc m'.desc = true)
  /-- A class that a descriptor mentions is one of the tree, or bears no name of the column. -/
  mentions : ∀ c ∈ t.classes.values, ∀ kind, ∀ m ∈ c.members kind, ∀ desc, m.desc = some desc →
    ∀ mentioned ∈ Descriptor.classNames desc, t.BearsName column mentioned →
      ∃ c' ∈ t.classes.values, c'.names.source = mentioned

/-- The class of a source name; of two classes with one source name the later one counts. -/
def lastOf (t : MappingTree) (name : String) : Option ClassMapping :=
  t.classes.values.reverse.find? fun c => c.names.source = name

/-- The names of the classes in a column, by their source names. -/
def nameIn (t : MappingTree) (column : Nat) : ClassMap :=
  fun name => (t.lastOf name).bind (·.names.get? column)

variable {t : MappingTree} {column : Nat}

theorem mem_of_lastOf {name : String} {c : ClassMapping} (h : t.lastOf name = some c) :
    c ∈ t.classes.values :=
  List.mem_reverse.1 (List.mem_of_find?_eq_some h)

theorem source_of_lastOf {name : String} {c : ClassMapping} (h : t.lastOf name = some c) :
    c.names.source = name := by
  simpa using List.find?_some h

theorem lastOf_ne_none {name : String} {c : ClassMapping} (hc : c ∈ t.classes.values)
    (hname : c.names.source = name) : t.lastOf name ≠ none := by
  intro hnone
  rw [lastOf, List.find?_eq_none] at hnone
  exact hnone c (List.mem_reverse.2 hc) (decide_eq_true hname)

namespace Apart

theorem class_eq (h : t.Apart column) {c c' : ClassMapping} (hc : c ∈ t.classes.values)
    (hc' : c' ∈ t.classes.values) (hsame : c.names.get? column = c'.names.get? column) : c = c' :=
  List.inj_on_of_nodup_map h.distinct hc hc' hsame

theorem member_eq (h : t.Apart column) {c : ClassMapping} (hc : c ∈ t.classes.values)
    {kind : MemberKind} {m m' : MemberMapping} (hm : m ∈ c.members kind) (hm' : m' ∈ c.members kind)
    (hname : m.names.get? column = m'.names.get? column)
    (hfit : descriptorsFit m.desc m'.desc = true) : m = m' := by
  have hsymm : Std.Symm fun m m' : MemberMapping =>
      ¬ (m.names.get? column = m'.names.get? column ∧ descriptorsFit m.desc m'.desc = true) := by
    refine ⟨fun a b hab hba => hab ⟨hba.1.symm, ?_⟩⟩
    have hfit := hba.2
    revert hfit
    cases a.desc <;> cases b.desc <;> simp only [descriptorsFit, beq_iff_eq, imp_self]
    exact Eq.symm
  by_contra hne
  exact (h.overloads c hc kind).forall hm hm' hne ⟨hname, hfit⟩

theorem unbroken_nameIn (h : t.Apart column) : (t.nameIn column).Unbroken := by
  intro name renamed hrenamed
  obtain ⟨c, hc, hname⟩ := Option.bind_eq_some_iff.1 hrenamed
  exact h.unbroken renamed ⟨c, mem_of_lastOf hc, hname⟩

theorem sourceNames_iff_mem (h : t.Apart column) {key name : String} :
    (t.sourceNames column).get? key = some name ↔
      ∃ c ∈ t.classes.values, c.names.get? column = some key ∧ c.names.source = name := by
  have hmem : ∀ found, (key, found) ∈ (t.classes.values.filterMap fun c =>
      (c.names.get? column).map fun name => (name, c.names.source)) ↔
        ∃ c ∈ t.classes.values, c.names.get? column = some key ∧ c.names.source = found := by
    intro found
    simp [List.mem_filterMap]
  constructor
  · exact fun hfound => (hmem name).1 (OrderedMap.mem_of_get?_ofList hfound)
  · intro hname
    refine OrderedMap.get?_ofList_of_mem ((hmem name).2 hname) fun other hother => ?_
    obtain ⟨c, hc, hkey, rfl⟩ := hname
    obtain ⟨c', hc', hkey', rfl⟩ := (hmem other).1 hother
    rw [h.class_eq hc' hc (hkey'.trans hkey.symm)]

/-- A descriptor of the tree comes back from the column. -/
theorem rename_sourceNames_nameIn (h : t.Apart column) {c : ClassMapping}
    (hc : c ∈ t.classes.values) {kind : MemberKind} {m : MemberMapping} (hm : m ∈ c.members kind)
    {desc : String} (hdesc : m.desc = some desc) :
    Descriptor.rename (t.sourceNames column).get? (Descriptor.rename (t.nameIn column) desc) =
      desc := by
  apply Descriptor.rename_rename_eq_self h.unbroken_nameIn
  intro mentioned hmentioned
  cases hlast : t.lastOf mentioned with
  | some c' =>
    obtain ⟨key, hkey⟩ := Option.isSome_iff_exists.1 (h.classes c' (mem_of_lastOf hlast))
    have hname := h.sourceNames_iff_mem.2
      ⟨c', mem_of_lastOf hlast, hkey, source_of_lastOf hlast⟩
    simp [ClassMap.image, nameIn, hlast, hkey, hname]
  | none =>
    cases hname : (t.sourceNames column).get? mentioned with
    | none => simp [ClassMap.image, nameIn, hlast, hname]
    | some name =>
      obtain ⟨c', hc', hkey, -⟩ := h.sourceNames_iff_mem.1 hname
      obtain ⟨c'', hc'', hsource⟩ :=
        h.mentions c hc kind m hm desc hdesc mentioned hmentioned ⟨c', hc', hkey⟩
      exact absurd hlast (lastOf_ne_none hc'' hsource)

end Apart

/-- A class and a member of it that a look-up in a column is for: they bear the names, and the
descriptor of the member, if it has one, is the one that is looked up. -/
structure Declares (t : MappingTree) (column : Nat) (kind : MemberKind) (owner name desc : String)
    (c : ClassMapping) (m : MemberMapping) : Prop where
  mem : c ∈ t.classes.values
  owner : c.names.get? column = some owner
  member : m ∈ c.members kind
  name : m.names.get? column = some name
  fits : descriptorsFit (m.desc.map (Descriptor.rename (t.nameIn column))) (some desc) = true

/-- A look-up is for one member at most. -/
theorem Apart.declares_unique (h : t.Apart column) {kind : MemberKind} {owner name desc : String}
    {c c' : ClassMapping} {m m' : MemberMapping} (hm : t.Declares column kind owner name desc c m)
    (hm' : t.Declares column kind owner name desc c' m') : c = c' ∧ m = m' := by
  obtain rfl := h.class_eq hm.mem hm'.mem (hm.owner.trans hm'.owner.symm)
  refine ⟨rfl, h.member_eq hm.mem hm.member hm'.member (hm.name.trans hm'.name.symm) ?_⟩
  have hfits := hm.fits
  have hfits' := hm'.fits
  cases hdesc : m.desc with
  | none => simp [descriptorsFit]
  | some d =>
    cases hdesc' : m'.desc with
    | none => simp [descriptorsFit]
    | some d' =>
      simp only [hdesc, hdesc', Option.map_some, descriptorsFit, beq_iff_eq] at hfits hfits' ⊢
      rw [← h.rename_sourceNames_nameIn hm.mem hm.member hdesc, hfits, ← hfits',
        h.rename_sourceNames_nameIn hm'.mem hm'.member hdesc']

end MappingTree

namespace Dictionary

open MappingTree

variable {t : MappingTree} {a b : Namespace} {first second : Nat}

namespace View

theorem nameOf_eq {v : View} {names : Names} {name : String}
    (h : names.get? v.first = some name) : v.nameOf names = name := by
  rw [nameOf, h, Option.getD_some]

theorem renamedOf_eq {v : View} {names : Names} {name : String}
    (h : names.get? v.second = some name) : v.renamedOf names = name := by
  rw [renamedOf, h, Option.getD_some]

theorem descOf_ofTree (h : t.Named first) (second : Nat) :
    (ofTree t first second).descOf = Descriptor.rename (t.nameIn first) := by
  have hclasses : (ofTree t first second).classes.get? = t.nameIn first := by
    funext name
    change (OrderedMap.ofList (t.classes.values.map fun c =>
      (c.names.source, nameOf ⟨first, second, {}⟩ c.names))).get? name = _
    rw [OrderedMap.get?_ofList_map]
    change (t.lastOf name).map _ = (t.lastOf name).bind _
    cases hlast : t.lastOf name with
    | none => rfl
    | some c =>
      obtain ⟨key, hkey⟩ := Option.isSome_iff_exists.1 (h.classes c (mem_of_lastOf hlast))
      rw [Option.map_some, Option.bind_some, hkey, nameOf_eq hkey]
  funext desc
  rw [descOf, hclasses]

end View

theorem newClass?_iff (hfirst : t.Apart first) (hsecond : t.Named second) {name renamed : String} :
    (ofColumns t a b first second).newClass? name = some renamed ↔
      ∃ c ∈ t.classes.values, c.names.get? first = some name ∧
        c.names.get? second = some renamed := by
  have hmem : ∀ found, (name, found) ∈ (t.classes.values.map fun c =>
      ((View.ofTree t first second).nameOf c.names,
        (View.ofTree t first second).renamedOf c.names)) ↔
          ∃ c ∈ t.classes.values, c.names.get? first = some name ∧
            c.names.get? second = some found := by
    intro found
    rw [List.mem_map]
    refine exists_congr fun c => and_congr_right fun hc => ?_
    obtain ⟨x, hx⟩ := Option.isSome_iff_exists.1 (hfirst.classes c hc)
    obtain ⟨y, hy⟩ := Option.isSome_iff_exists.1 (hsecond.classes c hc)
    rw [View.nameOf_eq hx, View.renamedOf_eq hy, hx, hy]
    simp
  rw [ofColumns_eq]
  constructor
  · exact fun hfound => (hmem renamed).1 (OrderedMap.mem_of_get?_ofList hfound)
  · intro hfound
    refine OrderedMap.get?_ofList_of_mem ((hmem renamed).2 hfound) fun other hother => ?_
    obtain ⟨c, hc, hname, hrenamed⟩ := hfound
    obtain ⟨c', hc', hname', hrenamed'⟩ := (hmem other).1 hother
    obtain rfl := hfirst.class_eq hc hc' (hname.trans hname'.symm)
    exact Option.some.inj (hrenamed'.symm.trans hrenamed)

theorem newClass?_eq_none (hfirst : t.Apart first) (hsecond : t.Named second) {name : String}
    (h : ¬ t.BearsName first name) :
    (ofColumns t a b first second).newClass? name = none := by
  rw [Option.eq_none_iff_forall_ne_some]
  intro renamed hrenamed
  obtain ⟨c, hc, hname, -⟩ := (newClass?_iff hfirst hsecond).1 hrenamed
  exact h ⟨c, hc, hname⟩

/-- A descriptor of the tree in one column is led to its form in another. -/
theorem newDescriptor_nameIn (hfirst : t.Apart first) (hsecond : t.Named second)
    {c : ClassMapping} (hc : c ∈ t.classes.values) {kind : MemberKind} {m : MemberMapping}
    (hm : m ∈ c.members kind) {desc : String} (hdesc : m.desc = some desc) :
    (ofColumns t a b first second).newDescriptor
      (Descriptor.rename (t.nameIn first) desc) = Descriptor.rename (t.nameIn second) desc := by
  rw [newDescriptor, Descriptor.rename_rename _ hfirst.unbroken_nameIn]
  apply Descriptor.rename_congr
  intro mentioned hmentioned
  rw [ClassMap.image_andThen]
  cases hlast : t.lastOf mentioned with
  | some c' =>
    have hc' := mem_of_lastOf hlast
    obtain ⟨x, hx⟩ := Option.isSome_iff_exists.1 (hfirst.classes c' hc')
    obtain ⟨y, hy⟩ := Option.isSome_iff_exists.1 (hsecond.classes c' hc')
    have hnew := (newClass?_iff (a := a) (b := b) hfirst hsecond).2 ⟨c', hc', hx, hy⟩
    simp [ClassMap.image, nameIn, hlast, hx, hy, hnew]
  | none =>
    have hforeign : ¬ t.BearsName first mentioned := by
      intro hbears
      obtain ⟨c', hc', hsource⟩ :=
        hfirst.mentions c hc kind m hm desc hdesc mentioned hmentioned hbears
      exact lastOf_ne_none hc' hsource hlast
    have hnew := newClass?_eq_none (a := a) (b := b) hfirst hsecond hforeign
    simp [ClassMap.image, nameIn, hlast, hnew]

/-- What a dictionary holds for the members of a kind. -/
theorem mem_members_iff (hfirst : t.Named first) (hsecond : t.Named second) (kind : MemberKind)
    (found : MemberNames) :
    found ∈ (t.classes.values.map ((View.ofTree t first second).membersOf kind)).flatten ↔
      ∃ c ∈ t.classes.values, ∃ m ∈ c.members kind,
        c.names.get? first = some found.key.owner ∧ m.names.get? first = some found.key.name ∧
          m.desc.map (Descriptor.rename (t.nameIn first)) = found.key.desc ∧
            m.names.get? second = some found.renamed := by
  rw [← List.flatMap_def, List.mem_flatMap]
  simp only [View.membersOf, List.mem_map]
  refine exists_congr fun c => and_congr_right fun hc => exists_congr fun m =>
    and_congr_right fun hm => ?_
  obtain ⟨owner, howner⟩ := Option.isSome_iff_exists.1 (hfirst.classes c hc)
  obtain ⟨name, hname⟩ := Option.isSome_iff_exists.1 (hfirst.members c hc kind m hm)
  obtain ⟨renamed, hrenamed⟩ := Option.isSome_iff_exists.1 (hsecond.members c hc kind m hm)
  rw [View.memberOf, View.nameOf_eq howner, View.nameOf_eq hname, View.renamedOf_eq hrenamed,
    View.descOf_ofTree hfirst, howner, hname, hrenamed]
  rcases found with ⟨⟨owner', name', desc'⟩, renamed'⟩
  simp [and_assoc]

theorem descriptorsFit_map_some {f : String → String} {desc : Option String} {given : String} :
    descriptorsFit (desc.map f) (some given) = true ↔
      desc.map f = some given ∨ desc = none := by
  cases desc <;> simp [descriptorsFit]

/-- A key finds the member that bears its names and has its descriptor. -/
theorem get?_table_iff (hfirst : t.Apart first) (hsecond : t.Named second) {kind : MemberKind}
    {key : MemberKey} {renamed : String} :
    ((ofColumns t a b first second).table kind).get? key = some renamed ↔
      ∃ c ∈ t.classes.values, ∃ m ∈ c.members kind,
        c.names.get? first = some key.owner ∧ m.names.get? first = some key.name ∧
          m.desc.map (Descriptor.rename (t.nameIn first)) = key.desc ∧
            m.names.get? second = some renamed := by
  have hmem := mem_members_iff hfirst.toNamed hsecond kind
  rw [table_ofColumns]
  constructor
  · intro hfound
    rw [get?_byKey] at hfound
    obtain ⟨found, hfind, rfl⟩ := Option.map_eq_some_iff.1 hfound
    obtain rfl : found.key = key := by simpa using List.find?_some hfind
    exact (hmem found).1 (List.mem_of_find?_eq_some hfind)
  · intro hfound
    refine get?_byKey_of_mem (m := ⟨key, renamed⟩) ((hmem ⟨key, renamed⟩).2 hfound) ?_
    intro other hother hsame
    obtain ⟨c, hc, m, hm, howner, hname, hdesc, hrenamed⟩ := hfound
    obtain ⟨c', hc', m', hm', howner', hname', hdesc', hrenamed'⟩ := (hmem other).1 hother
    rw [hsame] at howner' hname' hdesc'
    have hfits : ∀ desc : Option String, desc.map (Descriptor.rename (t.nameIn first)) = key.desc →
        descriptorsFit (desc.map (Descriptor.rename (t.nameIn first)))
          (some (key.desc.getD "")) = true := by
      intro desc hdesc
      rw [hdesc]
      cases key.desc <;> simp [descriptorsFit]
    obtain ⟨-, rfl⟩ := hfirst.declares_unique ⟨hc, howner, hm, hname, hfits _ hdesc⟩
      ⟨hc', howner', hm', hname', hfits _ hdesc'⟩
    exact Option.some.inj (hrenamed'.symm.trans hrenamed)

/-- A look-up finds the member that it is for. -/
theorem newMember?_iff (hfirst : t.Apart first) (hsecond : t.Named second) {kind : MemberKind}
    {owner name desc renamed : String} :
    (ofColumns t a b first second).newMember? kind owner name desc = some renamed ↔
      ∃ c m, t.Declares first kind owner name desc c m ∧ m.names.get? second = some renamed := by
  rw [newMember?_eq, Option.or_eq_some_iff]
  constructor
  · rintro (hfound | ⟨-, hfound⟩)
    · obtain ⟨c, hc, m, hm, howner, hname, hdesc, hrenamed⟩ :=
        (get?_table_iff hfirst hsecond).1 hfound
      exact ⟨c, m, ⟨hc, howner, hm, hname, descriptorsFit_map_some.2 (.inl hdesc)⟩, hrenamed⟩
    · obtain ⟨c, hc, m, hm, howner, hname, hdesc, hrenamed⟩ :=
        (get?_table_iff hfirst hsecond).1 hfound
      have hnone : m.desc = none := Option.map_eq_none_iff.1 hdesc
      exact ⟨c, m, ⟨hc, howner, hm, hname, descriptorsFit_map_some.2 (.inr hnone)⟩, hrenamed⟩
  · rintro ⟨c, m, hm, hrenamed⟩
    rcases descriptorsFit_map_some.1 hm.fits with hdesc | hdesc
    · left
      exact (get?_table_iff hfirst hsecond).2
        ⟨c, hm.mem, m, hm.member, hm.owner, hm.name, hdesc, hrenamed⟩
    · right
      constructor
      · -- a member with the descriptor would be a second one that the look-up is for
        rw [Option.eq_none_iff_forall_ne_some]
        intro other hother
        obtain ⟨c', hc', m', hm', howner', hname', hdesc', -⟩ :=
          (get?_table_iff hfirst hsecond).1 hother
        obtain ⟨-, rfl⟩ := hfirst.declares_unique hm
          ⟨hc', howner', hm', hname', descriptorsFit_map_some.2 (.inl hdesc')⟩
        rw [hdesc] at hdesc'
        cases hdesc'
      · exact (get?_table_iff hfirst hsecond).2
          ⟨c, hm.mem, m, hm.member, hm.owner, hm.name, by rw [hdesc]; rfl, hrenamed⟩

theorem newExactMethod?_iff (hfirst : t.Apart first) (hsecond : t.Named second)
    {owner name desc renamed : String} :
    (ofColumns t a b first second).newExactMethod? owner name desc = some renamed ↔
      ∃ c m, t.Declares first .method owner name desc c m ∧ m.desc ≠ none ∧
        m.names.get? second = some renamed := by
  change ((ofColumns t a b first second).table .method).get? ⟨owner, name, some desc⟩ = _ ↔ _
  rw [get?_table_iff hfirst hsecond]
  constructor
  · rintro ⟨c, hc, m, hm, howner, hname, hdesc, hrenamed⟩
    refine ⟨c, m, ⟨hc, howner, hm, hname, descriptorsFit_map_some.2 (.inl hdesc)⟩, ?_, hrenamed⟩
    intro hnone
    rw [hnone] at hdesc
    cases hdesc
  · rintro ⟨c, m, hm, hdesc, hrenamed⟩
    exact ⟨c, hm.mem, m, hm.member, hm.owner, hm.name,
      (descriptorsFit_map_some.1 hm.fits).resolve_right hdesc, hrenamed⟩

end Dictionary

end JarRemap
