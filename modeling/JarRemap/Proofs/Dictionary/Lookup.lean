import JarRemap.Dictionary
import JarRemap.Proofs.Merge.Members
import Mathlib.Data.List.Basic

/-!
# What a dictionary finds

A dictionary is made from the names of a tree in two columns and in the source namespace. What it
finds for a class or a member is said here of the tree; two trees that have the same names in these
columns have the same dictionary.
-/

namespace JarRemap

namespace OrderedMap

variable {κ ν β : Type} [DecidableEq κ]

theorem values_eq_filterMap_keys (m : OrderedMap κ ν) : m.values = m.keys.filterMap m.get? := by
  rw [keys, List.filterMap_map]
  have hfound : m.entries.filterMap (m.get? ∘ Prod.fst) = m.entries.filterMap fun e => some e.2 :=
    List.filterMap_congr fun e he => get?_eq_some_iff.2 he
  rw [hfound, List.filterMap_eq_map']
  rfl

theorem exists_get?_of_mem_keys {m : OrderedMap κ ν} {k : κ} (h : k ∈ m.keys) :
    ∃ v, m.get? k = some v := by
  obtain ⟨e, he, rfl⟩ := List.mem_map.1 h
  exact ⟨e.2, get?_eq_some_iff.2 he⟩

/-- What is seen of the values is told by the keys and by what is seen under each. -/
theorem map_values_congr {m m' : OrderedMap κ ν} {g : ν → β} (hkeys : m'.keys = m.keys)
    (h : ∀ k ∈ m.keys, (m'.get? k).map g = (m.get? k).map g) :
    m'.values.map g = m.values.map g := by
  rw [values_eq_filterMap_keys, values_eq_filterMap_keys, hkeys, List.map_filterMap,
    List.map_filterMap]
  exact List.filterMap_congr h

/-- Of the entries of one key the first one counts, if a key that has a value keeps it. -/
theorem get?_foldl_insertNew {α : Type} (key : α → κ) (value : α → ν) (l : List α)
    (m : OrderedMap κ ν) (k : κ) :
    (l.foldl (fun m a => m.insertNew (key a) (value a)) m).get? k =
      (m.get? k).or ((l.find? fun a => key a = k).map value) := by
  induction l generalizing m with
  | nil => simp
  | cons a l ih =>
    rw [List.foldl_cons, ih, get?_insertNew, List.find?_cons]
    by_cases h : key a = k
    · subst h
      cases m.get? (key a) <;> simp
    · have h' : ¬ k = key a := fun e => h e.symm
      simp [h, h']

end OrderedMap

namespace Dictionary

/-- The names of the members of a kind by their keys. -/
def table (kind : MemberKind) (d : Dictionary) : OrderedMap MemberKey String :=
  match kind with
  | .field => d.fields
  | .method => d.methods

/-- The new name of a member that a class declares with this descriptor or none. -/
def newMember? (kind : MemberKind) (d : Dictionary) (owner name desc : String) : Option String :=
  match kind with
  | .field => d.newField? owner name (some desc)
  | .method => d.newMethod? owner name desc

theorem newMember?_eq (kind : MemberKind) (d : Dictionary) (owner name desc : String) :
    d.newMember? kind owner name desc =
      ((d.table kind).get? ⟨owner, name, some desc⟩).or ((d.table kind).get? ⟨owner, name, none⟩) := by
  cases kind <;> exact Option.orElse_eq_or

theorem get?_byKey (members : List MemberNames) (key : MemberKey) :
    (byKey members).get? key = (members.find? fun m => m.key = key).map (·.renamed) := by
  rw [byKey, OrderedMap.get?_foldl_insertNew]
  rfl

/-- A member is found if all members of its key have its new name. -/
theorem get?_byKey_of_mem {members : List MemberNames} {m : MemberNames} (hm : m ∈ members)
    (hsame : ∀ other ∈ members, other.key = m.key → other.renamed = m.renamed) :
    (byKey members).get? m.key = some m.renamed := by
  rw [get?_byKey]
  cases hfound : members.find? fun other => other.key = m.key with
  | none =>
    rw [List.find?_eq_none] at hfound
    exact absurd (decide_eq_true rfl) (hfound m hm)
  | some other =>
    have hkey : other.key = m.key := by simpa using List.find?_some hfound
    rw [Option.map_some, hsame other (List.mem_of_find?_eq_some hfound) hkey]

theorem get?_byKey_eq_none {members : List MemberNames} {key : MemberKey}
    (h : ∀ m ∈ members, m.key ≠ key) : (byKey members).get? key = none := by
  rw [get?_byKey, List.find?_eq_none.2 (by simpa using h)]
  rfl

namespace View

/-- The members of a kind of a class. -/
def membersOf (kind : MemberKind) (v : View) (c : ClassMapping) : List MemberNames :=
  (c.members kind).map fun m => v.memberOf (v.nameOf c.names) m.names m.desc

theorem fieldsOf_eq (v : View) : v.fieldsOf = v.membersOf .field := by
  funext c
  simp only [fieldsOf, membersOf, ClassMapping.members, List.map_map]
  rfl

theorem methodsOf_eq (v : View) : v.methodsOf = v.membersOf .method := by
  funext c
  simp only [methodsOf, membersOf, ClassMapping.members, List.map_map]
  rfl

/-- The view of a tree between two columns. -/
def ofTree (t : MappingTree) (first second : Nat) : View :=
  let inSource : View := ⟨first, second, {}⟩
  { inSource with
    classes := .ofList (t.classes.values.map fun c => (c.names.source, inSource.nameOf c.names)) }

end View

theorem ofColumns_eq (t : MappingTree) (source target : Namespace) (first second : Nat) :
    let v := View.ofTree t first second
    let members := fun kind => (t.classes.values.map (v.membersOf kind)).flatten
    ofColumns t source target first second =
      { source, target
        classes := .ofList (t.classes.values.map fun c => (v.nameOf c.names, v.renamedOf c.names))
        fields := byKey (members .field)
        methods := byKey (members .method)
        fieldsByName := byName (members .field)
        methodsByName := byName (members .method) } := by
  simp only [ofColumns, View.fieldsOf_eq, View.methodsOf_eq, List.flatMap]
  rfl

theorem table_ofColumns (kind : MemberKind) (t : MappingTree) (source target : Namespace)
    (first second : Nat) :
    (ofColumns t source target first second).table kind =
      byKey (t.classes.values.map ((View.ofTree t first second).membersOf kind)).flatten := by
  rw [ofColumns_eq]
  cases kind <;> rfl

end Dictionary

/-- Two forms of a class with the same names and descriptors in all columns but one. -/
structure ClassMapping.SameBut (column : Nat) (c c' : ClassMapping) : Prop where
  names : ∀ other, other ≠ column → c'.names.get? other = c.names.get? other
  members : ∀ kind, ∃ change : MemberMapping → MemberMapping,
    c'.members kind = (c.members kind).map change ∧
      ∀ m ∈ c.members kind, (change m).desc = m.desc ∧
        ∀ other, other ≠ column → (change m).names.get? other = m.names.get? other

namespace Dictionary

variable {column : Nat}

namespace View

variable {v : View} {names names' : Names}

theorem nameOf_congr (hzero : 0 ≠ column) (hfirst : v.first ≠ column)
    (h : ∀ other, other ≠ column → names'.get? other = names.get? other) :
    v.nameOf names' = v.nameOf names := by
  rw [nameOf, nameOf, Names.source, Names.source, h v.first hfirst, h 0 hzero]

theorem renamedOf_congr (hzero : 0 ≠ column) (hfirst : v.first ≠ column)
    (hsecond : v.second ≠ column)
    (h : ∀ other, other ≠ column → names'.get? other = names.get? other) :
    v.renamedOf names' = v.renamedOf names := by
  rw [renamedOf, renamedOf, nameOf_congr hzero hfirst h, h v.second hsecond]

theorem membersOf_congr (hzero : 0 ≠ column) (hfirst : v.first ≠ column)
    (hsecond : v.second ≠ column) {c c' : ClassMapping} (h : c.SameBut column c')
    (kind : MemberKind) : v.membersOf kind c' = v.membersOf kind c := by
  obtain ⟨change, hchange, hkept⟩ := h.members kind
  rw [membersOf, membersOf, hchange, List.map_map, nameOf_congr hzero hfirst h.names]
  refine List.map_congr_left fun m hm => ?_
  obtain ⟨hdesc, hnames⟩ := hkept m hm
  rw [Function.comp_apply, memberOf, memberOf, hdesc, nameOf_congr hzero hfirst hnames,
    renamedOf_congr hzero hfirst hsecond hnames]

end View

/-- A dictionary does not see a column that is none of its own. -/
theorem ofColumns_congr {t t' : MappingTree} (hzero : 0 ≠ column)
    (hkeys : t'.classes.keys = t.classes.keys)
    (hsame : ∀ name c, t.class? name = some c →
      ∃ c', t'.class? name = some c' ∧ c.SameBut column c')
    {first second : Nat} (hfirst : first ≠ column) (hsecond : second ≠ column)
    (source target : Namespace) :
    ofColumns t' source target first second = ofColumns t source target first second := by
  have hseen : ∀ {β : Type} (g : ClassMapping → β),
      (∀ c c', c.SameBut column c' → g c' = g c) →
        t'.classes.values.map g = t.classes.values.map g := by
    intro β g hg
    refine OrderedMap.map_values_congr hkeys fun name hname => ?_
    obtain ⟨c, hc⟩ := OrderedMap.exists_get?_of_mem_keys hname
    obtain ⟨c', hc', hbut⟩ := hsame name c hc
    change (t'.class? name).map g = _
    rw [hc', hc, Option.map_some, Option.map_some, hg c c' hbut]
  have hview : View.ofTree t' first second = View.ofTree t first second := by
    unfold View.ofTree
    dsimp only
    rw [hseen _ fun c c' hbut => ?_]
    rw [Names.source, Names.source, hbut.names 0 hzero, View.nameOf_congr hzero hfirst hbut.names]
  have hmembers : ∀ kind c c', c.SameBut column c' →
      (View.ofTree t first second).membersOf kind c' =
        (View.ofTree t first second).membersOf kind c :=
    fun kind c c' hbut => View.membersOf_congr hzero hfirst hsecond hbut kind
  rw [ofColumns_eq, ofColumns_eq, hview]
  dsimp only
  rw [hseen _ (hmembers .field), hseen _ (hmembers .method), hseen _ fun c c' hbut => ?_]
  rw [View.nameOf_congr hzero hfirst hbut.names,
    View.renamedOf_congr hzero hfirst hsecond hbut.names]

end Dictionary

end JarRemap
