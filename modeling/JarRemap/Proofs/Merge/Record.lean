import JarRemap.Merge
import Mathlib.Data.List.Nodup

/-!
# Records and the classes they change

What one record can do to a tree, and which names it leaves alone.
-/

/-!
## What one record does to the classes of a tree

A record speaks of one class at most. If the class is there, or the record may add it, the record
changes it; every other class stays. Whatever is to be known of a merge is known from this and from
the change that the record makes to the one class.
-/

namespace JarRemap

namespace Record

/-- The source name of the class a record speaks of, if the source of the record can tell. -/
def owner? (v : KeyView) (r : Record) : Option String :=
  match r.element with
  | .type => r.key?.bind v.class?
  | .field owner _ | .method owner _ | .param owner .. => v.class? owner

/-- Whether a record adds the class it speaks of. -/
def addsOwner (v : KeyView) (r : Record) : Bool :=
  match r.element with
  | .type => true
  | .field .. | .method .. | .param .. => v.creates

/-- What a record makes of the class it speaks of. -/
def change (v : KeyView) (columns : List Nat) (r : Record) (c : ClassMapping) : ClassMapping :=
  match r.element with
  | .type => c.annotate columns r
  | .field _ desc => c.annotateField v columns (desc.map v.sourceDesc) r
  | .method _ desc => c.annotateMethod v columns (desc.map v.sourceDesc) r
  | .param _ method desc index =>
      c.annotateParam v columns method (desc.map v.sourceDesc) index r

/-- What a record can make of the class it speaks of: it annotates the class or a member of it, or
adds a member, or is skipped. -/
inductive Changes (v : KeyView) (columns : List Nat) (r : Record) (c : ClassMapping) :
    ClassMapping → Prop where
  | skipped : Changes v columns r c c
  | type (element : r.element = .type) : Changes v columns r c (c.annotate columns r)
  | field {owner key : String} {desc : Option String} {i : Nat}
      (element : r.element = .field owner desc) (keyed : r.key? = some key)
      (found : c.fields.findIdx? (·.isFor v.column key (desc.map v.sourceDesc)) = some i) :
      Changes v columns r c
        { c with fields := c.fields.modify i (·.annotate columns (desc.map v.sourceDesc) r) }
  | newField {owner key : String} {desc : Option String}
      (element : r.element = .field owner desc) (keyed : r.key? = some key)
      (creates : v.creates = true)
      (absent : c.fields.findIdx? (·.isFor v.column key (desc.map v.sourceDesc)) = none) :
      Changes v columns r c
        { c with fields := c.fields ++
          [FieldMapping.annotate columns (desc.map v.sourceDesc) r { names := .ofSource key }] }
  | method {owner key : String} {desc : Option String} {i : Nat}
      (element : r.element = .method owner desc) (keyed : r.key? = some key)
      (found : c.methods.findIdx? (·.isFor v.column key (desc.map v.sourceDesc)) = some i) :
      Changes v columns r c
        { c with methods := c.methods.modify i (·.annotate columns (desc.map v.sourceDesc) r) }
  | newMethod {owner key : String} {desc : Option String}
      (element : r.element = .method owner desc) (keyed : r.key? = some key)
      (creates : v.creates = true)
      (absent : c.methods.findIdx? (·.isFor v.column key (desc.map v.sourceDesc)) = none) :
      Changes v columns r c
        { c with methods := c.methods ++
          [MethodMapping.annotate columns (desc.map v.sourceDesc) r { names := .ofSource key }] }
  | param {owner method : String} {desc : Option String} {index : UInt16} {i : Nat}
      (element : r.element = .param owner method desc index)
      (found : c.methods.findIdx? (·.isFor v.column method (desc.map v.sourceDesc)) = some i) :
      Changes v columns r c
        { c with methods := c.methods.modify i (·.annotateParam columns index r) }
  | newParam {owner method : String} {desc : Option String} {index : UInt16}
      (element : r.element = .param owner method desc index) (creates : v.creates = true)
      (absent : c.methods.findIdx? (·.isFor v.column method (desc.map v.sourceDesc)) = none) :
      Changes v columns r c
        { c with methods := c.methods ++
          [MethodMapping.annotateParam columns index r
            { names := .ofSource method, desc := desc.map v.sourceDesc }] }

theorem changes_change (v : KeyView) (columns : List Nat) (r : Record) (c : ClassMapping) :
    Changes v columns r c (r.change v columns c) := by
  unfold change
  cases helement : r.element with
  | type => exact .type helement
  | field owner desc =>
    dsimp only [ClassMapping.annotateField]
    cases hkey : r.key? with
    | none => exact .skipped
    | some key =>
      dsimp only
      split
      · next i hi => exact .field helement hkey hi
      · next hnone =>
        split
        · next hcreates => exact .newField helement hkey hcreates hnone
        · exact .skipped
  | method owner desc =>
    dsimp only [ClassMapping.annotateMethod]
    cases hkey : r.key? with
    | none => exact .skipped
    | some key =>
      dsimp only
      split
      · next i hi => exact .method helement hkey hi
      · next hnone =>
        split
        · next hcreates => exact .newMethod helement hkey hcreates hnone
        · exact .skipped
  | param owner method desc index =>
    dsimp only [ClassMapping.annotateParam]
    split
    · next i hi => exact .param helement hi
    · next hnone =>
      split
      · next hcreates => exact .newParam helement hcreates hnone
      · exact .skipped

end Record

namespace MappingTree

variable {v : KeyView} {columns : List Nat} {classes : OrderedMap String ClassMapping}

/-- The class a record speaks of, before the record changes it. -/
def ownerIn (v : KeyView) (classes : OrderedMap String ClassMapping) (r : Record)
    (name : String) : Option ClassMapping :=
  (classes.get? name).or (if r.addsOwner v then some (.ofSource name) else none)

theorem get?_insertNew_modify (name j : String) (f : ClassMapping → ClassMapping) :
    ((classes.insertNew name (.ofSource name)).modify name f).get? j =
      if j = name then ((classes.get? j).or (some (.ofSource j))).map f
      else classes.get? j := by
  rw [OrderedMap.get?_modify_insertNew]
  by_cases h : j = name
  · subst h
    cases classes.get? j <;> rfl
  · rw [if_neg h, if_neg h]

/-- A record is skipped, or changes the class it speaks of, which it may add before. -/
theorem apply_eq (v : KeyView) (columns : List Nat) (classes : OrderedMap String ClassMapping)
    (r : Record) :
    apply v columns classes r = match r.owner? v with
      | none => classes
      | some name =>
          (if r.addsOwner v then classes.insertNew name (.ofSource name) else classes).modify name
            (r.change v columns) := by
  unfold apply Record.owner? Record.addsOwner Record.change
  cases r.element with
  | type => rfl
  | field => rfl
  | method => rfl
  | param => rfl

/-- A record changes the class it speaks of and no other one. -/
theorem get?_apply (r : Record) (j : String) :
    (apply v columns classes r).get? j =
      if r.owner? v = some j then (ownerIn v classes r j).map (r.change v columns)
      else classes.get? j := by
  rw [apply_eq]
  cases hname : r.owner? v with
  | none => rw [if_neg (by simp)]
  | some name =>
    dsimp only [ownerIn]
    cases hadds : r.addsOwner v with
    | true =>
      rw [if_pos rfl, get?_insertNew_modify, if_pos rfl]
      by_cases h : j = name
      · rw [if_pos h, if_pos (by rw [h])]
      · rw [if_neg h, if_neg (fun e => h (Option.some.inj e).symm)]
    | false =>
      rw [if_neg Bool.false_ne_true, if_neg Bool.false_ne_true, OrderedMap.get?_modify,
        Option.or_none]
      by_cases h : j = name
      · rw [if_pos h, if_pos (by rw [h]), h]
      · rw [if_neg h, if_neg (fun e => h (Option.some.inj e).symm)]

/-- A class that no record speaks of stays. -/
theorem get?_foldl_apply_of_owner?_ne {records : List Record} {name : String}
    (h : ∀ r ∈ records, r.owner? v ≠ some name) :
    (records.foldl (apply v columns) classes).get? name = classes.get? name := by
  induction records generalizing classes with
  | nil => rfl
  | cons r records ih =>
    rw [List.foldl_cons, ih fun r' hr' => h r' (List.mem_cons_of_mem r hr'), get?_apply,
      if_neg (h r List.mem_cons_self)]

/-- What holds of a new class and is kept by every change holds of all classes behind a merge. -/
theorem foldl_apply_invariant {P : String → ClassMapping → Prop} {records : List Record}
    (hnew : ∀ name, P name (.ofSource name))
    (hchange : ∀ r ∈ records, ∀ name c, P name c → P name (r.change v columns c))
    (h : ∀ name c, classes.get? name = some c → P name c) :
    ∀ name c, (records.foldl (apply v columns) classes).get? name = some c → P name c := by
  induction records generalizing classes with
  | nil => exact h
  | cons r records ih =>
    refine ih (fun r' hr' => hchange r' (List.mem_cons_of_mem r hr')) ?_
    intro name c hc
    rw [get?_apply] at hc
    split at hc
    · obtain ⟨c₀, hc₀, rfl⟩ := Option.map_eq_some_iff.1 hc
      refine hchange r List.mem_cons_self name c₀ ?_
      rcases Option.or_eq_some_iff.1 hc₀ with hold | ⟨-, hnone⟩
      · exact h name c₀ hold
      · split at hnone
        · cases hnone
          exact hnew name
        · cases hnone
    · exact h name c hc

/-- What relates a class with every change of it relates each class with itself behind a merge. -/
theorem foldl_apply_kept {R : ClassMapping → ClassMapping → Prop} {records : List Record}
    (hrefl : ∀ c, R c c) (htrans : ∀ a b c, R a b → R b c → R a c)
    (hchange : ∀ r ∈ records, ∀ c, R c (r.change v columns c)) {name : String}
    {c : ClassMapping} (h : classes.get? name = some c) :
    ∃ c', (records.foldl (apply v columns) classes).get? name = some c' ∧ R c c' := by
  induction records generalizing classes c with
  | nil => exact ⟨c, h, hrefl c⟩
  | cons r records ih =>
    have hnext : ∃ c₁, (apply v columns classes r).get? name = some c₁ ∧ R c c₁ := by
      rw [get?_apply]
      split
      · refine ⟨r.change v columns c, ?_, hchange r List.mem_cons_self c⟩
        rw [ownerIn, h]
        rfl
      · exact ⟨c, h, hrefl c⟩
    obtain ⟨c₁, hc₁, hR₁⟩ := hnext
    obtain ⟨c₂, hc₂, hR₂⟩ := ih (fun r' hr' => hchange r' (List.mem_cons_of_mem r hr')) hc₁
    exact ⟨c₂, hc₂, htrans c c₁ c₂ hR₁ hR₂⟩

end MappingTree

end JarRemap

/-!
## Columns that a merge leaves alone

The names of a record go to the columns of its source's destinations, except for the key, which is
only looked up. Every other column of every class, field and method stays as it was, and members
keep their places.
-/

namespace JarRemap

theorem MappingTree.idxOf?_of_mem {α : Type} [DecidableEq α] {l : List α} {a : α} (h : a ∈ l) :
    l.idxOf? a = some (l.idxOf a) := by
  induction l with
  | nil => cases h
  | cons b l ih =>
    rw [List.idxOf?_cons, List.idxOf_cons]
    by_cases hb : b = a
    · simp [hb]
    · have hmem : a ∈ l := (List.mem_cons.1 h).resolve_left fun e => hb e.symm
      have hne : (b == a) = false := beq_false_of_ne hb
      simp [hne, ih hmem]

namespace Names

/-- The last name for a column among the names of a record. -/
def lastFor (column : Nat) (entries : List (Nat × Option String)) : Option String :=
  entries.reverse.findSome? fun e => if e.1 = column then e.2 else none

theorem lastFor_eq_none {column : Nat} {entries : List (Nat × Option String)}
    (h : ∀ e ∈ entries, e.1 ≠ column) : lastFor column entries = none := by
  rw [lastFor, List.findSome?_eq_none_iff]
  intro e he
  rw [if_neg (h e (List.mem_reverse.1 he))]

theorem lastFor_eq_some {column : Nat} (name : String) {entries : List (Nat × Option String)}
    (hmem : (column, some name) ∈ entries)
    (hsame : ∀ other, (column, some other) ∈ entries → other = name) :
    lastFor column entries = some name := by
  cases h : lastFor column entries with
  | none =>
    rw [lastFor, List.findSome?_eq_none_iff] at h
    have := h _ (List.mem_reverse.2 hmem)
    simp at this
  | some other =>
    rw [lastFor] at h
    obtain ⟨⟨c, found⟩, he, hfound⟩ := List.exists_of_findSome?_eq_some h
    split at hfound
    · next hc =>
      simp only at hc hfound
      subst hc hfound
      rw [hsame other (List.mem_reverse.1 he)]
    · cases hfound

/-- Of the names that are written to a column the last one counts; a column without one stays. -/
theorem get?_write (names : Names) (columns : List Nat) (r : Record) (start column : Nat) :
    (names.write columns r start).get? column =
      (lastFor column ((columns.zip r.names).drop start)).or (names.get? column) := by
  unfold write lastFor
  generalize (columns.zip r.names).drop start = entries
  induction entries generalizing names with
  | nil => rfl
  | cons e entries ih =>
    rw [List.foldl_cons, ih, List.reverse_cons, List.findSome?_append, Option.or_assoc]
    congr 1
    rcases e with ⟨c, _ | name⟩
    · simp
    · rw [get?_set]
      by_cases h : c = column
      · simp [h]
      · have h' : ¬ column = c := fun e => h e.symm
        simp [h, h']

theorem get?_write_of_not_mem {columns : List Nat} {start column : Nat}
    (h : column ∉ columns.drop start) (names : Names) (r : Record) :
    (names.write columns r start).get? column = names.get? column := by
  rw [get?_write, lastFor_eq_none, Option.none_or]
  intro e he
  rw [List.zip_eq_zipWith, List.drop_zipWith, ← List.zip_eq_zipWith] at he
  rintro rfl
  exact h (List.of_mem_zip he).1

/-- If no column is written twice, each one gets the name in its place, if there is any. -/
theorem get?_write_of_getElem? {columns : List Nat} (h : columns.Nodup) {i column start : Nat}
    (hcolumn : columns[i]? = some column) (hstart : start ≤ i) (names : Names) (r : Record) :
    (names.write columns r start).get? column = (r.name? i).or (names.get? column) := by
  have hentry : ∀ name, (column, name) ∈ (columns.zip r.names).drop start ↔
      r.names[i]? = some name := by
    intro name
    simp only [List.mem_iff_getElem?, List.getElem?_drop, List.getElem?_zip_eq_some]
    constructor
    · rintro ⟨j, hj, hname⟩
      have hlt := (List.getElem?_eq_some_iff.1 hj).1
      rwa [(List.getElem?_inj hlt h).1 (hj.trans hcolumn.symm)] at hname
    · intro hname
      refine ⟨i - start, ?_⟩
      rw [Nat.add_sub_cancel' hstart]
      exact ⟨hcolumn, hname⟩
  rw [get?_write]
  congr 1
  cases hname : r.name? i with
  | none =>
    rw [lastFor, List.findSome?_eq_none_iff]
    rintro ⟨other, name⟩ he
    split
    · next hsame =>
      obtain rfl : other = column := hsame
      have hfound := (hentry name).1 (List.mem_reverse.1 he)
      rwa [Record.name?, hfound] at hname
    · rfl
  | some name =>
    refine lastFor_eq_some name ((hentry _).2 (Option.join_eq_some_iff.1 hname)) ?_
    intro other hother
    rw [Record.name?, (hentry _).1 hother] at hname
    exact Option.some.inj hname

end Names

namespace ClassMapping

/-- A later form of a class has in a column the names of the earlier form; members keep their
places, new ones come behind. -/
structure KeepsColumn (column : Nat) (before after : ClassMapping) : Prop where
  name : after.names.get? column = before.names.get? column
  fields : before.fields.map (·.names.get? column) <+: after.fields.map (·.names.get? column)
  methods : before.methods.map (·.names.get? column) <+: after.methods.map (·.names.get? column)

namespace KeepsColumn

variable {column : Nat} {a b c : ClassMapping}

theorem refl (column : Nat) (c : ClassMapping) : KeepsColumn column c c :=
  ⟨rfl, List.prefix_refl _, List.prefix_refl _⟩

theorem trans (hab : KeepsColumn column a b) (hbc : KeepsColumn column b c) :
    KeepsColumn column a c :=
  ⟨hbc.name.trans hab.name, hab.fields.trans hbc.fields, hab.methods.trans hbc.methods⟩

end KeepsColumn

/-- A change of one member that a view of members does not see. -/
theorem map_modify_of_eq {α β : Type} {g : α → β} {f : α → α} (h : ∀ a, g (f a) = g a)
    (l : List α) (i : Nat) : (l.modify i f).map g = l.map g := by
  refine List.ext_getElem? fun j => ?_
  rw [List.getElem?_map, List.getElem?_map, List.getElem?_modify]
  cases l[j]? with
  | none => rfl
  | some a =>
    by_cases hj : i = j
    · simp [hj, h]
    · simp [hj]

theorem prefix_map_modify {α β : Type} {g : α → β} {f : α → α} (h : ∀ a, g (f a) = g a)
    (l : List α) (i : Nat) : l.map g <+: (l.modify i f).map g :=
  ⟨[], by rw [map_modify_of_eq h, List.append_nil]⟩

theorem prefix_map_append {α β : Type} (g : α → β) (l more : List α) :
    l.map g <+: (l ++ more).map g := by
  rw [List.map_append]
  exact List.prefix_append _ _

end ClassMapping

/-- A record leaves every column alone that is none of its destinations. -/
theorem Record.Changes.keepsColumn {v : KeyView} {columns : List Nat} {column : Nat} {r : Record}
    {c c' : ClassMapping} (h : column ∉ columns.drop 1) (hchange : r.Changes v columns c c') :
    c.KeepsColumn column c' := by
  cases hchange with
  | skipped => exact .refl column c
  | type => exact ⟨Names.get?_write_of_not_mem h _ _, List.prefix_refl _, List.prefix_refl _⟩
  | field =>
    refine ⟨rfl, ?_, List.prefix_refl _⟩
    exact ClassMapping.prefix_map_modify (fun f => Names.get?_write_of_not_mem h f.names r) _ _
  | newField => exact ⟨rfl, ClassMapping.prefix_map_append _ _ _, List.prefix_refl _⟩
  | method =>
    refine ⟨rfl, List.prefix_refl _, ?_⟩
    exact ClassMapping.prefix_map_modify (fun m => Names.get?_write_of_not_mem h m.names r) _ _
  | newMethod => exact ⟨rfl, List.prefix_refl _, ClassMapping.prefix_map_append _ _ _⟩
  | @param _ _ _ index =>
    -- a parameter has names of its own; those of its method stay
    have hnames : ∀ m : MethodMapping,
        (m.annotateParam columns index r).names.get? column = m.names.get? column := fun _ => rfl
    exact ⟨rfl, List.prefix_refl _, ClassMapping.prefix_map_modify hnames _ _⟩
  | newParam => exact ⟨rfl, List.prefix_refl _, ClassMapping.prefix_map_append _ _ _⟩

theorem Record.keepsColumn_change {v : KeyView} {columns : List Nat} {column : Nat}
    (h : column ∉ columns.drop 1) (r : Record) (c : ClassMapping) :
    c.KeepsColumn column (r.change v columns c) :=
  (r.changes_change v columns c).keepsColumn h

end JarRemap
