import JarRemap.Adapt
import JarRemap.Proofs.Descriptor.Compose
import JarRemap.Proofs.Merge.First
import Mathlib.Data.List.Nodup
import Mathlib.Data.List.Pairwise
import Mathlib.Logic.Equiv.Basic

/-!
# Keying a source by another column

If the key and another column both name everything in a source, and tell everything apart, then
keying the source by the other column gives every record the key of the same element: owners and
descriptors are written under the other names, from which they can be read back.
-/

namespace JarRemap

namespace Element

/-- The class an element belongs to, unless it is a class. -/
def owner? : Element → Option String
  | type => none
  | field owner _ | method owner _ | param owner .. => some owner

/-- The descriptor of an element, if it has one; a parameter comes with that of its method. -/
def desc? : Element → Option String
  | type => none
  | field _ desc | method _ desc | param _ _ desc _ => desc

end Element

namespace Record

/-- The name of a class in a column. -/
def className? (column : Nat) (r : Record) : Option String :=
  if r.element = .type then r.name? column else none

/-- A member under its name in a column. -/
def memberIn? (column : Nat) (kind : MemberKind) (r : Record) : Option MemberKey :=
  match kind, r.element with
  | .field, .field owner desc => (r.name? column).map fun name => ⟨owner, name, desc⟩
  | .method, .method owner desc => (r.name? column).map fun name => ⟨owner, name, desc⟩
  | _, _ => none

theorem className?_eq_some_iff {column : Nat} {r : Record} {name : String} :
    r.className? column = some name ↔ r.element = .type ∧ r.name? column = some name := by
  unfold className?
  split <;> simp [*]

/-- The key of a class and its name in a column. -/
def classPair? (column : Nat) (r : Record) : Option (String × String) :=
  (r.className? 0).bind fun key => (r.className? column).map fun name => (key, name)

theorem classPair?_eq_some_iff {column : Nat} {r : Record} {key name : String} :
    r.classPair? column = some (key, name) ↔
      r.className? 0 = some key ∧ r.className? column = some name := by
  unfold classPair?
  cases r.className? 0 <;> cases r.className? column <;> simp

theorem memberIn?_zero (kind : MemberKind) (r : Record) :
    r.memberIn? 0 kind = r.memberKey? kind := by
  unfold memberIn? memberKey?
  cases kind <;> cases r.element <;> rfl

end Record

/-- Two members of one owner that share a name and have descriptors that fit each other. -/
def MemberKey.Clashes (a b : MemberKey) : Prop :=
  a.owner = b.owner ∧ a.name = b.name ∧ descriptorsFit a.desc b.desc = true

instance (a b : MemberKey) : Decidable (a.Clashes b) :=
  inferInstanceAs
    (Decidable (a.owner = b.owner ∧ a.name = b.name ∧ descriptorsFit a.desc b.desc = true))

theorem descriptorsFit_comm (a b : Option String) : descriptorsFit a b = descriptorsFit b a := by
  cases a <;> cases b <;> simp [descriptorsFit, Bool.beq_comm]

theorem MemberKey.Clashes.symm {a b : MemberKey} (h : a.Clashes b) : b.Clashes a :=
  ⟨h.1.symm, h.2.1.symm, descriptorsFit_comm a.desc b.desc ▸ h.2.2⟩

theorem MemberKey.clashes_self (a : MemberKey) : a.Clashes a := by
  refine ⟨rfl, rfl, ?_⟩
  cases a.desc <;> simp [descriptorsFit]

namespace Source

/-- Whether some class has a name in a column. -/
def HasClass (s : Source) (column : Nat) (name : String) : Prop :=
  ∃ r ∈ s.records, r.className? column = some name

/-- A source that is keyed by its first column as well as by another one. -/
structure Switchable (s : Source) (column : Nat) : Prop where
  inside : column < s.width
  namespaces : s.namespaces.Nodup
  /-- Every class, field and method has a name in both columns. -/
  named : ∀ r ∈ s.records, r.element.isParam = false → ∀ i ∈ [0, column], (r.name? i).isSome
  /-- No two classes share a name in one of them. -/
  classes : ∀ i ∈ [0, column], (s.records.filterMap (·.className? i)).Nodup
  /-- No two fields, and no two methods, of one owner share a name in one of them and have
  descriptors that fit each other. -/
  members : ∀ i ∈ [0, column], ∀ kind, s.records.Pairwise fun r r' =>
    ∀ key ∈ r.memberIn? i kind, ∀ key' ∈ r'.memberIn? i kind, ¬ key.Clashes key'
  /-- Every owner is a class of the source. -/
  owners : ∀ r ∈ s.records, ∀ owner ∈ r.element.owner?, s.HasClass 0 owner
  unbroken : ∀ r ∈ s.records, ∀ name, some name ∈ r.names → ';' ∉ name.toList
  /-- A class that a descriptor mentions is one of the source, or no class has its name. -/
  mentions : ∀ r ∈ s.records, ∀ desc ∈ r.element.desc?, ∀ mentioned ∈ Descriptor.classNames desc,
    s.HasClass 0 mentioned ∨ ¬ s.HasClass 0 mentioned ∧ ¬ s.HasClass column mentioned

/-- A source of which the key and another column both name the classes, and tell them apart. -/
structure TwoNamed (s : Source) (column : Nat) : Prop where
  /-- Every class, field and method has a name in both columns. -/
  named : ∀ r ∈ s.records, r.element.isParam = false → ∀ i ∈ [0, column], (r.name? i).isSome
  classes : ∀ i ∈ [0, column], (s.records.filterMap (·.className? i)).Nodup
  owners : ∀ r ∈ s.records, ∀ owner ∈ r.element.owner?, s.HasClass 0 owner
  /-- The other name of a class can stand in a descriptor. -/
  unbroken : ∀ name, s.HasClass column name → ';' ∉ name.toList
  mentions : ∀ r ∈ s.records, ∀ desc ∈ r.element.desc?, ∀ mentioned ∈ Descriptor.classNames desc,
    s.HasClass 0 mentioned ∨ ¬ s.HasClass 0 mentioned ∧ ¬ s.HasClass column mentioned

theorem Switchable.twoNamed {s : Source} {k : Nat} (h : s.Switchable k) : s.TwoNamed k where
  named := h.named
  classes := h.classes
  owners := h.owners
  unbroken := by
    rintro name ⟨r, hr, hclass⟩
    have hname := (Record.className?_eq_some_iff.1 hclass).2
    exact h.unbroken r hr name (List.mem_of_getElem? (Option.join_eq_some_iff.1 hname))
  mentions := h.mentions

/-- Every parameter is one of a method of the source, or of none that its key could be taken for. -/
def ParamsKnown (s : Source) (column : Nat) : Prop :=
  ∀ r ∈ s.records, ∀ owner method desc index, r.element = .param owner method desc index →
    (∃ r' ∈ s.records, r'.memberKey? .method = some ⟨owner, method, desc⟩) ∨
      ∀ i ∈ [0, column], ∀ r' ∈ s.records, ∀ key ∈ r'.memberIn? i .method,
        ¬ key.Clashes ⟨owner, method, desc⟩

/-- Whether some record has a descriptor, if it is one. -/
def HasDesc (s : Source) (desc : Option String) : Prop :=
  ∀ d ∈ desc, ∃ r ∈ s.records, r.element.desc? = some d

/-- The names of the classes in a column, by their keys. -/
def classMap (s : Source) (column : Nat) : ClassMap := (rekeyedClasses column s.records).get?

/-- The keys of the classes, by their names in a column. -/
def classMapBack (s : Source) (column : Nat) : ClassMap :=
  fun name => (s.records.find? fun r => r.className? column = some name).bind (·.className? 0)

end Source

/-- Elements that a relation tells apart only if they are not one. -/
theorem eq_of_pairwise {α : Type} {R : α → α → Prop} (hsymm : ∀ a b, R a b → R b a) {l : List α}
    (h : l.Pairwise R) {a b : α} (ha : a ∈ l) (hb : b ∈ l) (hab : ¬ R a b) : a = b := by
  by_contra hne
  have : Std.Symm R := ⟨hsymm⟩
  exact hab (h.forall ha hb hne)

theorem eq_of_nodup_filterMap {α β : Type} {f : α → Option β} {l : List α}
    (h : (l.filterMap f).Nodup) {a a' : α} (ha : a ∈ l) (ha' : a' ∈ l) {b : β} (hb : f a = some b)
    (hb' : f a' = some b) : a = a' := by
  refine eq_of_pairwise ?_ (List.pairwise_filterMap.1 h) ha ha' ?_
  · exact fun x y hxy b hb b' hb' => (hxy b' hb' b hb).symm
  · exact fun hne => hne b hb b hb' rfl

theorem Source.rekeyedClasses_eq (column : Nat) (records : List Record) :
    rekeyedClasses column records = .ofList (records.filterMap (·.classPair? column)) := by
  unfold rekeyedClasses
  congr
  funext r
  unfold Record.classPair? Record.className? Record.key?
  cases r.element <;> cases r.name? 0 <;> cases r.name? column <;> rfl

/-- If no two classes share a key, every name is the one that a record gives to its class. -/
theorem Source.classMap_eq_some_iff {s : Source} {k : Nat}
    (h : (s.records.filterMap (·.className? 0)).Nodup) {key name : String} :
    s.classMap k key = some name ↔
      ∃ r ∈ s.records, r.className? 0 = some key ∧ r.className? k = some name := by
  have hmem : ∀ found, (key, found) ∈ s.records.filterMap (·.classPair? k) ↔
      ∃ r ∈ s.records, r.className? 0 = some key ∧ r.className? k = some found := by
    intro found
    simp only [List.mem_filterMap, Record.classPair?_eq_some_iff]
  rw [classMap, rekeyedClasses_eq]
  constructor
  · exact fun hfound => (hmem name).1 (OrderedMap.mem_of_get?_ofList hfound)
  · intro hname
    refine OrderedMap.get?_ofList_of_mem ((hmem name).2 hname) fun other hother => ?_
    obtain ⟨r, hr, hkey, hname⟩ := hname
    obtain ⟨r', hr', hkey', hother⟩ := (hmem other).1 hother
    rw [eq_of_nodup_filterMap h hr' hr hkey' hkey, hname] at hother
    exact (Option.some.inj hother).symm

namespace Source.TwoNamed

variable {s : Source} {k : Nat}

theorem class_eq (h : s.TwoNamed k) {i : Nat} (hi : i ∈ [0, k]) {r r' : Record}
    (hr : r ∈ s.records) (hr' : r' ∈ s.records) {name : String}
    (hname : r.className? i = some name) (hname' : r'.className? i = some name) : r = r' :=
  eq_of_nodup_filterMap (h.classes i hi) hr hr' hname hname'

/-- A class has a name in both columns. -/
theorem exists_className? (h : s.TwoNamed k) {r : Record} (hr : r ∈ s.records)
    (helement : r.element = .type) {i : Nat} (hi : i ∈ [0, k]) :
    ∃ name, r.className? i = some name := by
  have hnamed := h.named r hr (by rw [helement]; rfl) i hi
  obtain ⟨name, hname⟩ := Option.isSome_iff_exists.1 hnamed
  exact ⟨name, Record.className?_eq_some_iff.2 ⟨helement, hname⟩⟩

theorem classMap_eq_some_iff (h : s.TwoNamed k) {key name : String} :
    s.classMap k key = some name ↔
      ∃ r ∈ s.records, r.className? 0 = some key ∧ r.className? k = some name :=
  Source.classMap_eq_some_iff (h.classes 0 List.mem_cons_self)

theorem classMapBack_eq_some_iff (h : s.TwoNamed k) {name key : String} :
    s.classMapBack k name = some key ↔
      ∃ r ∈ s.records, r.className? k = some name ∧ r.className? 0 = some key := by
  rw [classMapBack, Option.bind_eq_some_iff]
  constructor
  · rintro ⟨r, hfound, hkey⟩
    have hname : r.className? k = some name := by simpa using List.find?_some hfound
    exact ⟨r, List.mem_of_find?_eq_some hfound, hname, hkey⟩
  · rintro ⟨r, hr, hname, hkey⟩
    cases hfound : s.records.find? fun r => r.className? k = some name with
    | none =>
      rw [List.find?_eq_none] at hfound
      exact absurd (decide_eq_true hname) (hfound r hr)
    | some r' =>
      have hname' : r'.className? k = some name := by simpa using List.find?_some hfound
      have hsame := h.class_eq (List.mem_cons_of_mem 0 List.mem_cons_self)
        (List.mem_of_find?_eq_some hfound) hr hname' hname
      exact ⟨r', rfl, hsame ▸ hkey⟩

theorem unbroken_classMap (h : s.TwoNamed k) : (s.classMap k).Unbroken := by
  intro key name hname
  obtain ⟨r, hr, -, hname⟩ := h.classMap_eq_some_iff.1 hname
  exact h.unbroken name ⟨r, hr, hname⟩

/-- A name that is the key of a class, or no name of a class, is read back. -/
theorem image_classMapBack (h : s.TwoNamed k) {name : String}
    (hname : s.HasClass 0 name ∨ ¬ s.HasClass 0 name ∧ ¬ s.HasClass k name) :
    (s.classMapBack k).image ((s.classMap k).image name) = name := by
  rcases hname with ⟨r, hr, hkey⟩ | ⟨hzero, hk⟩
  · obtain ⟨other, hother⟩ := h.exists_className? hr (Record.className?_eq_some_iff.1 hkey).1
      (List.mem_cons_of_mem 0 List.mem_cons_self)
    have hforth : s.classMap k name = some other := h.classMap_eq_some_iff.2 ⟨r, hr, hkey, hother⟩
    have hback := h.classMapBack_eq_some_iff.2 ⟨r, hr, hother, hkey⟩
    simp only [ClassMap.image, hforth, hback, Option.getD_some]
  · have hforth : s.classMap k name = none := by
      refine Option.eq_none_iff_forall_ne_some.2 fun other hfound => ?_
      obtain ⟨r, hr, hkey, -⟩ := h.classMap_eq_some_iff.1 hfound
      exact hzero ⟨r, hr, hkey⟩
    have hback : s.classMapBack k name = none := by
      refine Option.eq_none_iff_forall_ne_some.2 fun key hfound => ?_
      obtain ⟨r, hr, hname, -⟩ := h.classMapBack_eq_some_iff.1 hfound
      exact hk ⟨r, hr, hname⟩
    simp only [ClassMap.image, hforth, hback, Option.getD_none]

/-- A descriptor of the source is read back. -/
theorem rename_classMapBack (h : s.TwoNamed k) {r : Record} (hr : r ∈ s.records) {desc : String}
    (hdesc : r.element.desc? = some desc) :
    Descriptor.rename (s.classMapBack k) (Descriptor.rename (s.classMap k) desc) = desc :=
  Descriptor.rename_rename_eq_self h.unbroken_classMap fun mentioned hmentioned =>
    h.image_classMapBack (h.mentions r hr desc hdesc mentioned hmentioned)

theorem image_classMap_inj (h : s.TwoNamed k) {a b : String}
    (ha : s.HasClass 0 a ∨ ¬ s.HasClass 0 a ∧ ¬ s.HasClass k a)
    (hb : s.HasClass 0 b ∨ ¬ s.HasClass 0 b ∧ ¬ s.HasClass k b) :
    (s.classMap k).image a = (s.classMap k).image b ↔ a = b := by
  refine ⟨fun hab => ?_, fun hab => hab ▸ rfl⟩
  rw [← h.image_classMapBack ha, hab, h.image_classMapBack hb]

/-- Descriptors of the source fit each other under the names of one column as under those of the
other. -/
theorem descriptorsFit_rename (h : s.TwoNamed k) {a b : Option String} (ha : s.HasDesc a)
    (hb : s.HasDesc b) :
    descriptorsFit (a.map (Descriptor.rename (s.classMap k)))
      (b.map (Descriptor.rename (s.classMap k))) = descriptorsFit a b := by
  cases a with
  | none => rfl
  | some x =>
    cases b with
    | none => rfl
    | some y =>
      change (_ == _) = (x == y)
      rw [Bool.eq_iff_iff, beq_iff_eq, beq_iff_eq]
      refine ⟨fun hxy => ?_, fun hxy => hxy ▸ rfl⟩
      obtain ⟨r, hr, hx⟩ := ha x rfl
      obtain ⟨r', hr', hy⟩ := hb y rfl
      rw [← h.rename_classMapBack hr hx, hxy, h.rename_classMapBack hr' hy]

theorem desc_inj (h : s.TwoNamed k) {a b : Option String} (ha : s.HasDesc a) (hb : s.HasDesc b)
    (hab : a.map (Descriptor.rename (s.classMap k)) = b.map (Descriptor.rename (s.classMap k))) :
    a = b := by
  cases a with
  | none =>
    cases b with
    | none => rfl
    | some y => cases hab
  | some x =>
    cases b with
    | none => cases hab
    | some y =>
      have hfit := h.descriptorsFit_rename ha hb
      rw [hab] at hfit
      have hsame : x = y := by
        rw [Option.map_some] at hfit
        simpa [descriptorsFit] using hfit.symm
      rw [hsame]

end Source.TwoNamed

theorem Source.Switchable.member_eq {s : Source} {k : Nat} (h : s.Switchable k) {i : Nat}
    (hi : i ∈ [0, k]) {kind : MemberKind} {r r' : Record} (hr : r ∈ s.records)
    (hr' : r' ∈ s.records) {key key' : MemberKey} (hkey : r.memberIn? i kind = some key)
    (hkey' : r'.memberIn? i kind = some key') (hclash : key.Clashes key') : r = r' := by
  refine eq_of_pairwise ?_ (h.members i hi kind) hr hr' ?_
  · exact fun x y hxy a ha b hb hab => hxy b hb a ha hab.symm
  · exact fun hapart => hapart key hkey key' hkey' hclash

section SwapFirst

variable {α : Type} {k : Nat} {l : List α}

theorem getElem?_swapFirst (hk : k < l.length) (j : Nat) :
    (swapFirst k l)[j]? = l[Equiv.swap 0 k j]? := by
  cases l with
  | nil => simp at hk
  | cons a l =>
    have hb := List.getElem?_eq_getElem hk
    rw [swapFirst.eq_def, hb]
    simp only [List.getElem?_set, List.length_set]
    rw [Equiv.swap_apply_def]
    by_cases hzero : j = 0
    · subst hzero
      simp [hb]
    · by_cases hj : j = k
      · subst hj
        have hpos : 0 < (a :: l).length := Nat.zero_lt_succ _
        rw [if_neg (Ne.symm hzero), if_pos rfl, if_pos hk, if_neg hzero, if_pos rfl]
        rfl
      · rw [if_neg (Ne.symm hzero), if_neg (Ne.symm hj), if_neg hzero, if_neg hj]

theorem length_swapFirst (k : Nat) (l : List α) : (swapFirst k l).length = l.length := by
  unfold swapFirst
  split
  · rw [List.length_set, List.length_set]
  · rfl

theorem swap_lt (hk : k < l.length) {i : Nat} (hi : i < l.length) :
    Equiv.swap 0 k i < l.length := by
  rw [Equiv.swap_apply_def]
  split
  · exact hk
  · split
    · exact Nat.zero_lt_of_lt hk
    · exact hi

theorem nodup_swapFirst (hk : k < l.length) (h : l.Nodup) : (swapFirst k l).Nodup := by
  rw [List.nodup_iff_getElem?_ne_getElem?, length_swapFirst]
  intro i j hij hj hsame
  rw [getElem?_swapFirst hk, getElem?_swapFirst hk] at hsame
  have hindex := (List.getElem?_inj (swap_lt hk (Nat.lt_trans hij hj)) h).1 hsame
  exact Nat.ne_of_lt hij ((Equiv.swap 0 k).injective hindex)

theorem idxOf_swapFirst [DecidableEq α] (hk : k < l.length) (h : l.Nodup) {a : α} (ha : a ∈ l) :
    (swapFirst k l).idxOf a = Equiv.swap 0 k (l.idxOf a) := by
  have hlt := List.idxOf_lt_length_of_mem ha
  have hthere : (swapFirst k l)[Equiv.swap 0 k (l.idxOf a)]? = some a := by
    rw [getElem?_swapFirst hk, Equiv.swap_apply_self, List.getElem?_eq_getElem hlt,
      List.getElem_idxOf]
  have hfirst : (swapFirst k l)[(swapFirst k l).idxOf a]? = some a := by
    have hmem := List.idxOf_lt_length_of_mem (List.mem_of_getElem? hthere)
    rw [List.getElem?_eq_getElem hmem, List.getElem_idxOf]
  refine ((List.getElem?_inj ?_ (nodup_swapFirst hk h)).1 (hthere.trans hfirst.symm)).symm
  rw [length_swapFirst]
  exact swap_lt hk hlt

end SwapFirst

namespace Record

theorem memberKey?_eq_some {kind : MemberKind} {r : Record} {key : MemberKey}
    (h : r.memberKey? kind = some key) :
    r.name? 0 = some key.name ∧ r.element.owner? = some key.owner ∧ r.element.desc? = key.desc := by
  unfold memberKey? key? at h
  cases kind <;> cases helement : r.element <;> rw [helement] at h <;> try cases h
  all_goals
    obtain ⟨name, hname, rfl⟩ := Option.map_eq_some_iff.1 h
    exact ⟨hname, rfl, rfl⟩

theorem memberIn?_of_memberKey? {kind : MemberKind} {r : Record} {key : MemberKey}
    (h : r.memberKey? kind = some key) {i : Nat} {name : String} (hname : r.name? i = some name) :
    r.memberIn? i kind = some { key with name } := by
  unfold memberKey? at h
  unfold memberIn?
  cases kind <;> cases helement : r.element <;> rw [helement] at h <;> try cases h
  all_goals
    obtain ⟨_, -, rfl⟩ := Option.map_eq_some_iff.1 h
    rw [hname]
    rfl

/-- A record with its owner, its descriptor and its names under another key. -/
def keyedBy (column : Nat) (f : ClassMap) (r : Record) : Record :=
  { r with element := r.element.renameClasses f }.rekeyNames column

theorem isParam_keyedBy (column : Nat) (f : ClassMap) (r : Record) :
    (r.keyedBy column f).element.isParam = r.element.isParam := by
  unfold keyedBy rekeyNames
  cases r.element <;> split <;> rfl

theorem element_keyedBy (column : Nat) (f : ClassMap) (r : Record) :
    (r.keyedBy column f).element = r.element.renameClasses f := by
  unfold keyedBy rekeyNames
  split <;> rfl

/-- A record that has a name in a column has this one as its key, and its old key in the column. -/
theorem name?_keyedBy {column : Nat} {f : ClassMap} {r : Record}
    (hname : (r.name? column).isSome) (j : Nat) :
    (r.keyedBy column f).name? j = r.name? (Equiv.swap 0 column j) := by
  have hlt : column < r.names.length := by
    by_contra hle
    rw [name?, List.getElem?_eq_none (Nat.le_of_not_lt hle)] at hname
    cases hname
  have hnames : (r.keyedBy column f).names = swapFirst column r.names := by
    unfold keyedBy rekeyNames
    rw [if_pos]
    rw [Bool.or_eq_true]
    exact .inr hname
  rw [name?, hnames, getElem?_swapFirst hlt]
  rfl

theorem memberKey?_keyedBy {column : Nat} {f : ClassMap} {kind : MemberKind} {r : Record}
    {key : MemberKey} (h : r.memberKey? kind = some key) {name : String}
    (hname : r.name? column = some name) :
    (r.keyedBy column f).memberKey? kind =
      some ⟨f.image key.owner, name, key.desc.map (Descriptor.rename f)⟩ := by
  have hkey : (r.keyedBy column f).key? = some name := by
    rw [key?, name?_keyedBy (by rw [hname]; rfl), Equiv.swap_apply_left, hname]
  unfold memberKey? at h ⊢
  rw [element_keyedBy, hkey]
  cases kind <;> cases helement : r.element <;> rw [helement] at h <;> try cases h
  all_goals
    obtain ⟨_, -, rfl⟩ := Option.map_eq_some_iff.1 h
    rfl

end Record

namespace Source

variable {s : Source} {k : Nat}

/-- What a record becomes when its source is keyed by a column. -/
def rekeyed (s : Source) (column : Nat) (r : Record) : Record :=
  renameMethodOf (rekeyedMethods column (s.records.map (·.keyedBy column (s.classMap column))))
    (r.keyedBy column (s.classMap column))

theorem records_rekeyColumn (s : Source) (column : Nat) :
    (s.rekeyColumn column).records = s.records.map (s.rekeyed column) := by
  simp only [rekeyColumn, List.map_map]
  rfl

theorem namespaces_rekeyColumn (hk : k < s.width) :
    (s.rekeyColumn k).namespaces = swapFirst k s.namespaces := by
  have hhead : ∀ (a b : String) (l : List String), (a :: l)[k]? = some b →
      b :: (swapFirst k (a :: l)).tail = swapFirst k (a :: l) := by
    intro a b l hb
    rw [swapFirst.eq_def, hb]
    cases k <;> rfl
  have hin : s.namespaces[k]? = some s.namespaces[k] := List.getElem?_eq_getElem hk
  change (s.namespaces[k]?).getD s.key :: (swapFirst k s.namespaces).tail = _
  rw [hin]
  exact hhead s.key _ s.destinations hin

theorem rekey_of_getElem? (h : s.namespaces.Nodup) {namespaceName : String} (hpos : 0 < k)
    (hname : s.namespaces[k]? = some namespaceName) :
    s.rekey namespaceName = s.rekeyColumn k := by
  obtain ⟨hlt, hget⟩ := List.getElem?_eq_some_iff.1 hname
  have hidx : s.namespaces.idxOf namespaceName = k := by
    rw [← hget]
    exact h.idxOf_getElem k hlt
  have hne : s.key ≠ namespaceName := by
    rintro rfl
    rw [namespaces, List.idxOf_cons_self] at hidx
    exact Nat.ne_of_lt hpos hidx
  rw [rekey, if_neg hne, column?, MappingTree.idxOf?_of_mem (List.mem_of_getElem? hname), hidx]

theorem rekeyed_of_not_isParam {r : Record} (h : r.element.isParam = false) :
    s.rekeyed k r = r.keyedBy k (s.classMap k) := by
  have hparam := r.isParam_keyedBy k (s.classMap k)
  rw [h] at hparam
  unfold rekeyed renameMethodOf
  split
  · next helement =>
    rw [helement] at hparam
    cases hparam
  · rfl

theorem isParam_rekeyed (s : Source) (k : Nat) (r : Record) :
    (s.rekeyed k r).element.isParam = r.element.isParam := by
  rw [← r.isParam_keyedBy k (s.classMap k)]
  unfold rekeyed renameMethodOf
  split
  · next helement =>
    rw [helement]
    rfl
  · rfl

theorem owner?_rekeyed (s : Source) (k : Nat) (r : Record) :
    (s.rekeyed k r).element.owner? = r.element.owner?.map (s.classMap k).image := by
  have hkeyed : (r.keyedBy k (s.classMap k)).element.owner? =
      r.element.owner?.map (s.classMap k).image := by
    rw [Record.element_keyedBy]
    cases r.element <;> rfl
  rw [← hkeyed]
  unfold rekeyed renameMethodOf
  split
  · next helement =>
    rw [helement]
    rfl
  · rfl

/-- How a member is called in a column, by its key. A method that only parameters speak of has no
other name than the one they give it. -/
inductive OtherName (s : Source) (column : Nat) (kind : MemberKind) (key : MemberKey) :
    String → Prop where
  | recorded {r : Record} {name : String} (mem : r ∈ s.records)
      (keyed : r.memberKey? kind = some key) (named : r.name? column = some name) :
      OtherName s column kind key name
  | unrecorded (desc : s.HasDesc key.desc)
      (apart : ∀ i ∈ [0, column], ∀ r ∈ s.records, ∀ other ∈ r.memberIn? i kind,
        ¬ other.Clashes key) :
      OtherName s column kind key key.name

namespace Switchable

variable {kind : MemberKind} {key key' : MemberKey} {name name' : String}

theorem hasDesc (hname : s.OtherName k kind key name) : s.HasDesc key.desc := by
  cases hname with
  | recorded mem keyed =>
    intro d hd
    exact ⟨_, mem, (Record.memberKey?_eq_some keyed).2.2.trans hd⟩
  | unrecorded desc => exact desc

/-- A member that has a record is the one that its record speaks of. -/
theorem eq_of_clashes (h : s.Switchable k) {r : Record} (hr : r ∈ s.records)
    (hkey : r.memberKey? kind = some key) (hname : r.name? k = some name)
    (hother : s.OtherName k kind key' name') (hclash : key'.Clashes key) :
    key' = key ∧ name' = name := by
  have hzero : r.memberIn? 0 kind = some key := (r.memberIn?_zero kind).trans hkey
  cases hother with
  | @recorded r' _ mem keyed named =>
    have hzero' : r'.memberIn? 0 kind = some key' := (r'.memberIn?_zero kind).trans keyed
    have hsame := h.member_eq List.mem_cons_self mem hr hzero' hzero hclash
    subst hsame
    exact ⟨Option.some.inj (keyed.symm.trans hkey), Option.some.inj (named.symm.trans hname)⟩
  | unrecorded _ apart => exact absurd hclash.symm (apart 0 List.mem_cons_self r hr key hzero)

/-- Two members of one owner clash by their keys if and only if they clash by their other names. -/
theorem clashes_iff (h : s.Switchable k) (howner : key.owner = key'.owner)
    (hname : s.OtherName k kind key name) (hname' : s.OtherName k kind key' name') :
    key.Clashes key' ↔
      name = name' ∧ descriptorsFit (key.desc.map (Descriptor.rename (s.classMap k)))
        (key'.desc.map (Descriptor.rename (s.classMap k))) = true := by
  have hk : k ∈ [0, k] := List.mem_cons_of_mem 0 List.mem_cons_self
  rw [h.twoNamed.descriptorsFit_rename (hasDesc hname) (hasDesc hname')]
  constructor
  · intro hclash
    refine ⟨?_, hclash.2.2⟩
    cases hname' with
    | recorded mem keyed named => exact (h.eq_of_clashes mem keyed named hname hclash).2
    | unrecorded _ apart =>
      cases hname with
      | recorded mem keyed =>
        exact absurd hclash
          (apart 0 List.mem_cons_self _ mem key ((Record.memberIn?_zero kind _).trans keyed))
      | unrecorded => exact hclash.2.1
  · rintro ⟨hsame, hfit⟩
    cases hname with
    | recorded mem keyed named =>
      have hin := Record.memberIn?_of_memberKey? keyed named
      cases hname' with
      | recorded mem' keyed' named' =>
        have hin' := Record.memberIn?_of_memberKey? keyed' named'
        have hrecord := h.member_eq hk mem mem' hin hin' ⟨howner, hsame, hfit⟩
        subst hrecord
        rw [Option.some.inj (keyed.symm.trans keyed')]
        exact key'.clashes_self
      | unrecorded _ apart => exact absurd ⟨howner, hsame, hfit⟩ (apart k hk _ mem _ hin)
    | unrecorded _ apart =>
      cases hname' with
      | recorded mem keyed named =>
        have hin := Record.memberIn?_of_memberKey? keyed named
        exact absurd ⟨howner.symm, hsame.symm, descriptorsFit_comm _ _ ▸ hfit⟩
          (apart k hk _ mem _ hin)
      | unrecorded => exact ⟨howner, hsame, hfit⟩

/-- The other name of a method by its owner and descriptor under the other names, and its key. -/
theorem mem_rekeyedMethods (h : s.Switchable k) {owner old new : String} {desc : Option String} :
    ((owner, old, desc), new) ∈ ((s.records.map (·.keyedBy k (s.classMap k))).filterMap fun r =>
        match r.element, r.name? k, r.key? with
        | .method owner desc, some old, some new => some ((owner, old, desc), new)
        | _, _, _ => none) ↔
      ∃ r ∈ s.records, ∃ key, r.memberKey? .method = some key ∧ r.name? k = some new ∧
        owner = (s.classMap k).image key.owner ∧ old = key.name ∧
        desc = key.desc.map (Descriptor.rename (s.classMap k)) := by
  rw [List.filterMap_map, List.mem_filterMap]
  refine exists_congr fun r => and_congr_right fun hr => ?_
  rw [Function.comp_apply, Record.element_keyedBy]
  cases helement : r.element with
  | method owner' desc' =>
    have hnamed := h.named r hr (by rw [helement]; rfl)
    obtain ⟨x, hx⟩ := Option.isSome_iff_exists.1 (hnamed 0 List.mem_cons_self)
    obtain ⟨y, hy⟩ := Option.isSome_iff_exists.1
      (hnamed k (List.mem_cons_of_mem 0 List.mem_cons_self))
    have hold : (r.keyedBy k (s.classMap k)).name? k = some x := by
      rw [Record.name?_keyedBy (by rw [hy]; rfl), Equiv.swap_apply_right, hx]
    have hnew : (r.keyedBy k (s.classMap k)).key? = some y := by
      rw [Record.key?, Record.name?_keyedBy (by rw [hy]; rfl), Equiv.swap_apply_left, hy]
    have hkey : r.memberKey? .method = some ⟨owner', x, desc'⟩ := by
      simp only [Record.memberKey?, helement, Record.key?, hx, Option.map_some]
    simp only [Element.renameClasses, hold, hnew, hkey, hy, Option.some.injEq, Prod.mk.injEq,
      exists_eq_left']
    grind
  | type => simp [Element.renameClasses, Record.memberKey?, helement]
  | field => simp [Element.renameClasses, Record.memberKey?, helement]
  | param => simp [Element.renameClasses, Record.memberKey?, helement]

theorem get?_rekeyedMethods (h : s.Switchable k) (howner : s.HasClass 0 key.owner)
    (hname : s.OtherName k .method key name) :
    ((rekeyedMethods k (s.records.map (·.keyedBy k (s.classMap k)))).get?
      ((s.classMap k).image key.owner, key.name,
        key.desc.map (Descriptor.rename (s.classMap k)))).getD key.name = name := by
  -- an entry under this key is that of the member itself
  have hentry : ∀ r ∈ s.records, ∀ other, r.memberKey? .method = some other →
      (s.classMap k).image key.owner = (s.classMap k).image other.owner → key.name = other.name →
      key.desc.map (Descriptor.rename (s.classMap k)) =
        other.desc.map (Descriptor.rename (s.classMap k)) → key = other := by
    intro r hr other hother hsame hold hdesc
    obtain ⟨-, hotherOwner, hotherDesc⟩ := Record.memberKey?_eq_some hother
    have hclass := h.owners r hr other.owner hotherOwner
    have howners := (h.twoNamed.image_classMap_inj (.inl howner) (.inl hclass)).1 hsame
    have hdescs := h.twoNamed.desc_inj (hasDesc hname)
      (fun d hd => ⟨r, hr, hotherDesc.trans hd⟩) hdesc
    cases key
    cases other
    simp_all
  cases hname with
  | @recorded r _ mem keyed named =>
    rw [rekeyedMethods, OrderedMap.get?_ofList_of_mem (v := name)]
    · rfl
    · exact h.mem_rekeyedMethods.2 ⟨r, mem, key, keyed, named, rfl, rfl, rfl⟩
    · intro other hother
      obtain ⟨r', hr', key', hkey', hnew, howner', hold, hdesc⟩ := h.mem_rekeyedMethods.1 hother
      have hsame := hentry r' hr' key' hkey' howner' hold hdesc
      subst hsame
      exact (h.eq_of_clashes mem keyed named (.recorded hr' hkey' hnew) key.clashes_self).2
  | unrecorded _ apart =>
    refine Option.getD_eq_iff.2 (.inr ⟨?_, rfl⟩)
    refine Option.eq_none_iff_forall_ne_some.2 fun new hnew => ?_
    obtain ⟨r, hr, other, hother, -, howner', hold, hdesc⟩ :=
      h.mem_rekeyedMethods.1 (OrderedMap.mem_of_get?_ofList hnew)
    have hsame := hentry r hr other hother howner' hold hdesc
    subst hsame
    exact apart 0 List.mem_cons_self r hr key ((r.memberIn?_zero _).trans hother) key.clashes_self

/-- A record speaks of the same member before and after its source is keyed by the column. -/
theorem exists_otherName (h : s.Switchable k) (hparams : s.ParamsKnown k) {r : Record}
    (hr : r ∈ s.records) (hkey : r.mentions? kind = some key) :
    ∃ name, s.OtherName k kind key name ∧
      (s.rekeyed k r).mentions? kind = some ⟨(s.classMap k).image key.owner, name,
        key.desc.map (Descriptor.rename (s.classMap k))⟩ ∧
      (r.element.isParam = false → r.memberKey? kind = some key ∧ r.name? k = some name) := by
  by_cases hparam : r.element.isParam = true
  · obtain ⟨owner, method, desc, index, helement⟩ :
        ∃ owner method desc index, r.element = .param owner method desc index := by
      cases helement : r.element <;> simp_all [Element.isParam]
    have hdesc : s.HasDesc desc := fun d hd => ⟨r, hr, by rw [helement]; exact hd⟩
    have howner : s.HasClass 0 owner := h.owners r hr owner (by rw [helement]; rfl)
    have hkind : kind = .method ∧ key = ⟨owner, method, desc⟩ := by
      cases kind with
      | field => simp [Record.mentions?, Record.memberKey?, helement] at hkey
      | method =>
        simp only [Record.mentions?, helement, Option.some.injEq] at hkey
        exact ⟨rfl, hkey.symm⟩
    obtain ⟨rfl, rfl⟩ := hkind
    have hname : ∃ name, s.OtherName k .method ⟨owner, method, desc⟩ name := by
      rcases hparams r hr owner method desc index helement with ⟨r', hr', hkey'⟩ | hapart
      · have hmember := (Record.mentions?_of_memberKey? hkey').2
        obtain ⟨name, hname⟩ := Option.isSome_iff_exists.1
          (h.named r' hr' hmember k (List.mem_cons_of_mem 0 List.mem_cons_self))
        exact ⟨name, .recorded hr' hkey' hname⟩
      · exact ⟨method, .unrecorded hdesc hapart⟩
    obtain ⟨name, hname⟩ := hname
    refine ⟨name, hname, ?_, fun hmember => ?_⟩
    · have hget := h.get?_rekeyedMethods howner hname
      have helement' : (s.rekeyed k r).element = .param ((s.classMap k).image owner) name
          (desc.map (Descriptor.rename (s.classMap k))) index := by
        unfold rekeyed renameMethodOf
        rw [Record.element_keyedBy, helement]
        simp only [Element.renameClasses, hget]
      simp only [Record.mentions?, helement']
    · rw [hparam] at hmember
      cases hmember
  · have hmember : r.element.isParam = false := by simpa using hparam
    have hkey' : r.memberKey? kind = some key := by
      rw [← hkey]
      unfold Record.mentions?
      split
      · next helement =>
        rw [helement] at hmember
        cases hmember
      · rfl
    obtain ⟨name, hname⟩ := Option.isSome_iff_exists.1
      (h.named r hr hmember k (List.mem_cons_of_mem 0 List.mem_cons_self))
    refine ⟨name, .recorded hr hkey' hname, ?_, fun _ => ⟨hkey', hname⟩⟩
    rw [rekeyed_of_not_isParam hmember]
    exact (Record.mentions?_of_memberKey? (Record.memberKey?_keyedBy hkey' hname)).1

end Switchable

end Source

end JarRemap
