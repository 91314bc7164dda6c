import JarRemap.Proofs.Dictionary.Apart
import JarRemap.Proofs.Dictionary.Layered

/-!
# A dictionary is a scan of its tree

The tables of a dictionary are filled in one pass, each by a rule of its own. What is found in them
is what a scan of all members finds, in the order of the classes and their members: the first member
of a descriptor, the first one without a descriptor, or the one new name that all members of a name
share.
-/

namespace JarRemap

/-- The name of an element in a column, or else its source name. -/
def Names.nameFrom (names : Names) (column : Nat) : String :=
  (names.get? column).getD names.source

/-- The name of an element in a second column, or else that in the first. -/
def Names.renamed (names : Names) (first second : Nat) : String :=
  (names.get? second).getD (names.nameFrom first)

namespace MappingTree

/-- The members of a kind with their classes, in order. -/
def declared (t : MappingTree) (kind : MemberKind) : List (ClassMapping × MemberMapping) :=
  t.classes.values.flatMap fun c => (c.members kind).map fun m => (c, m)

/-- A descriptor of the source namespace with the names that the classes have in a column. -/
def translate (t : MappingTree) (column : Nat) (desc : String) : String :=
  let called (name : String) : Option ClassMapping :=
    t.classes.values.find? fun c => c.names.source = name
  Descriptor.rename (fun name => (called name).map fun c => c.names.nameFrom column) desc

/-- A member goes by a name, and its class by the name of an owner. -/
def GoesBy (column : Nat) (owner name : String) (d : ClassMapping × MemberMapping) : Prop :=
  d.1.names.nameFrom column = owner ∧ d.2.names.nameFrom column = name

instance (column : Nat) (owner name : String) (d : ClassMapping × MemberMapping) :
    Decidable (GoesBy column owner name d) := inferInstanceAs (Decidable (_ ∧ _))

/-- The new name of the first member with a descriptor of the first column, or with none. -/
def scan? (t : MappingTree) (first second : Nat) (kind : MemberKind) (owner name : String)
    (desc : Option String) : Option String :=
  let found := (t.declared kind).find? fun d =>
    GoesBy first owner name d ∧ d.2.desc.map (t.translate first) = desc
  found.map fun d => d.2.names.renamed first second

/-- There are members of a name, and all of them have one new name. -/
def Agree (t : MappingTree) (first second : Nat) (kind : MemberKind)
    (owner name renamed : String) : Prop :=
  (∃ d ∈ t.declared kind, GoesBy first owner name d) ∧
    ∀ d ∈ t.declared kind, GoesBy first owner name d → d.2.names.renamed first second = renamed

instance (t : MappingTree) (first second : Nat) (kind : MemberKind) (owner name renamed : String) :
    Decidable (t.Agree first second kind owner name renamed) := inferInstanceAs (Decidable (_ ∧ _))

end MappingTree

namespace Dictionary

/-- A dictionary answers for the members of a tree as a scan does. -/
structure Scans (t : MappingTree) (first second : Nat) (d : Dictionary) : Prop where
  fields : ∀ owner name desc, d.newField? owner name (some desc) =
    (t.scan? first second .field owner name (some desc)).or
      (t.scan? first second .field owner name none)
  exactMethods : ∀ owner name desc, d.newExactMethod? owner name desc =
    t.scan? first second .method owner name (some desc)
  methods : ∀ owner name desc, d.newMethod? owner name desc =
    (t.scan? first second .method owner name (some desc)).or
      (t.scan? first second .method owner name none)
  fieldsNamed : ∀ owner name renamed, d.newField? owner name none = some renamed ↔
    t.Agree first second .field owner name renamed
  methodsNamed : ∀ owner name renamed, d.newMethodNamed? owner name = some renamed ↔
    t.Agree first second .method owner name renamed

theorem get?_addByName (table : OrderedMap (String × String) (Option String)) (m : MemberNames)
    (k : String × String) :
    (addByName table m).get? k =
      if k = (m.key.owner, m.key.name) then
        some (if (table.get? k).getD (some m.renamed) = some m.renamed then some m.renamed
          else none)
      else table.get? k := by
  rw [addByName, OrderedMap.get?_modify_insertNew]
  split
  · congr 1
    split
    · next hsame => exact hsame
    · rfl
  · rfl

/-- A name is known as long as nothing disagrees, and a disagreement is not forgotten. -/
theorem get?_foldl_addByName (members : List MemberNames)
    (table : OrderedMap (String × String) (Option String)) (owner name renamed : String) :
    (members.foldl addByName table).get? (owner, name) = some (some renamed) ↔
      (table.get? (owner, name) = some (some renamed) ∨
        table.get? (owner, name) = none ∧
          ∃ m ∈ members, m.key.owner = owner ∧ m.key.name = name) ∧
        ∀ m ∈ members, m.key.owner = owner ∧ m.key.name = name → m.renamed = renamed := by
  induction members generalizing table with
  | nil => simp
  | cons m members ih =>
    rw [List.foldl_cons, ih, get?_addByName, List.exists_mem_cons_iff, List.forall_mem_cons]
    by_cases h : (owner, name) = (m.key.owner, m.key.name)
    · obtain ⟨rfl, rfl⟩ := Prod.mk.inj h
      rw [if_pos rfl]
      cases hknown : table.get? (m.key.owner, m.key.name) with
      | none => simp [eq_comm]
      | some known =>
        by_cases hsame : known = some m.renamed
        · simp [hsame]
        · have hnever : known = some renamed → m.renamed ≠ renamed := by
            rintro rfl rfl
            exact hsame rfl
          simp only [Option.getD_some, hsame, if_false, Option.some.injEq, reduceCtorEq, false_and,
            or_self, false_iff, not_and, or_false]
          exact fun hrenamed hagrees => absurd (hagrees ⟨trivial, trivial⟩) (hnever hrenamed)
    · have hother : ¬ (m.key.owner = owner ∧ m.key.name = name) := by
        rintro ⟨rfl, rfl⟩
        exact h rfl
      rw [if_neg h]
      simp only [hother, false_or, false_imp_iff, true_and]

theorem join_get?_byName (members : List MemberNames) (owner name renamed : String) :
    ((byName members).get? (owner, name)).join = some renamed ↔
      (∃ m ∈ members, m.key.owner = owner ∧ m.key.name = name) ∧
        ∀ m ∈ members, m.key.owner = owner ∧ m.key.name = name → m.renamed = renamed := by
  rw [Option.join_eq_some_iff, byName, get?_foldl_addByName]
  have hempty : (∅ : OrderedMap (String × String) (Option String)).get? (owner, name) = none := rfl
  simp only [hempty, reduceCtorEq, false_or, true_and]

section

variable {t : MappingTree} (first second : Nat)

/-- The names of a member and of its class, between two columns. -/
def namesOf (t : MappingTree) (first second : Nat) (d : ClassMapping × MemberMapping) :
    MemberNames :=
  ⟨⟨d.1.names.nameFrom first, d.2.names.nameFrom first, d.2.desc.map (t.translate first)⟩,
    d.2.names.renamed first second⟩

/-- Among elements with keys of their own, it does not matter where the search for one begins. -/
theorem find?_reverse_of_nodup {α κ : Type} [DecidableEq κ] {l : List α} {key : α → κ}
    (h : (l.map key).Nodup) (k : κ) :
    (l.reverse.find? fun a => key a = k) = l.find? fun a => key a = k := by
  induction l with
  | nil => rfl
  | cons a l ih =>
    obtain ⟨hnew, hrest⟩ := List.nodup_cons.1 h
    rw [List.reverse_cons, List.find?_append, ih hrest, List.find?_cons]
    by_cases ha : key a = k
    · have hnone : (l.find? fun b => key b = k) = none := by
        rw [List.find?_eq_none]
        intro b hb hsame
        exact hnew (List.mem_map.2 ⟨b, hb, (of_decide_eq_true hsame).trans ha.symm⟩)
      simp [hnone, ha]
    · simp [ha]

theorem descOf_ofTree (hdistinct : (t.classes.values.map fun c => c.names.source).Nodup)
    (desc : String) : (View.ofTree t first second).descOf desc = t.translate first desc := by
  refine congrArg (Descriptor.rename · desc) (funext fun name => ?_)
  rw [View.ofTree, OrderedMap.get?_ofList_map, find?_reverse_of_nodup hdistinct]
  rfl

theorem flatten_membersOf (hdistinct : (t.classes.values.map fun c => c.names.source).Nodup)
    (kind : MemberKind) :
    (t.classes.values.map ((View.ofTree t first second).membersOf kind)).flatten =
      (t.declared kind).map (namesOf t first second) := by
  rw [MappingTree.declared, List.map_flatMap, List.flatMap]
  simp only [List.map_map]
  refine congrArg List.flatten (List.map_congr_left fun c _ => List.map_congr_left fun m _ => ?_)
  have hdesc := funext (descOf_ofTree first second hdistinct)
  rw [View.memberOf, hdesc]
  rfl

theorem get?_table (hdistinct : (t.classes.values.map fun c => c.names.source).Nodup)
    (source target : Namespace) (kind : MemberKind) (owner name : String) (desc : Option String) :
    ((ofColumns t source target first second).table kind).get? ⟨owner, name, desc⟩ =
      t.scan? first second kind owner name desc := by
  rw [table_ofColumns, flatten_membersOf first second hdistinct, get?_byKey, List.find?_map,
    Option.map_map, MappingTree.scan?]
  simp only [Function.comp_def, namesOf, MemberKey.mk.injEq, MappingTree.GoesBy, and_assoc]

theorem agree_iff (hdistinct : (t.classes.values.map fun c => c.names.source).Nodup)
    (kind : MemberKind) (owner name renamed : String) :
    ((byName (t.classes.values.map ((View.ofTree t first second).membersOf kind)).flatten).get?
        (owner, name)).join = some renamed ↔
      t.Agree first second kind owner name renamed := by
  rw [flatten_membersOf first second hdistinct, join_get?_byName, List.forall_mem_map]
  simp only [List.mem_map, exists_exists_and_eq_and]
  rfl

theorem scans_ofColumns (hdistinct : (t.classes.values.map fun c => c.names.source).Nodup)
    (source target : Namespace) :
    (ofColumns t source target first second).Scans t first second := by
  have hfound := fun kind owner name desc =>
    get?_table first second hdistinct source target kind owner name desc
  constructor
  case fields =>
    intro owner name desc
    rw [← hfound, ← hfound]
    exact newMember?_eq .field _ owner name desc
  case methods =>
    intro owner name desc
    rw [← hfound, ← hfound]
    exact newMember?_eq .method _ owner name desc
  case exactMethods => exact fun owner name desc => hfound .method owner name (some desc)
  case fieldsNamed =>
    intro owner name renamed
    rw [← agree_iff first second hdistinct, ofColumns_eq]
    rfl
  case methodsNamed =>
    intro owner name renamed
    rw [← agree_iff first second hdistinct, ofColumns_eq]
    rfl

end

/-- There is a dictionary between any two namespaces of a tree, and it answers as a scan does. -/
theorem ofTree_scans {t : MappingTree} {source target : String} (hsource : source ∈ t.namespaces)
    (htarget : target ∈ t.namespaces)
    (hdistinct : (t.classes.values.map fun c => c.names.source).Nodup) :
    ∃ d, ofTree t source target = .ok d ∧
      d.Scans t (t.namespaces.idxOf source) (t.namespaces.idxOf target) := by
  rw [ofTree_eq, if_pos hsource, if_pos htarget]
  exact ⟨_, rfl, scans_ofColumns _ _ hdistinct _ _⟩

namespace Sample

/-- Three fields of one name, of which two get the same new name and one has no descriptor, and two
methods that agree. -/
def overloaded : MappingTree where
  namespaces := ["official", "searge", "mcp"]
  classes := ⟨[
    ("a", {
      names := [some "a", some "A"]
      fields := [
        { names := [some "f", none, some "first"], desc := some "La;" },
        { names := [some "f", none, some "second"], desc := some "I" },
        { names := [some "f", none, some "first"] }]
      methods := [
        { names := [some "m", some "ma", some "run"], desc := some "(La;)V" },
        { names := [some "n", some "ma", some "run"], desc := some "()V" }] })], by decide⟩

end Sample

open Sample in
/-- The third field agrees with the first, and is found where no descriptor fits. -/
theorem ofTree_scans_overloaded :
    (overloaded.classes.values.map fun c => c.names.source).Nodup ∧
    ∃ d, ofTree overloaded "searge" "mcp" = .ok d ∧ d.Scans overloaded 1 2 ∧
      d.newField? "A" "f" (some "I") = some "second" ∧
      d.newField? "A" "f" (some "J") = some "first" ∧
      (∀ renamed, d.newField? "A" "f" none ≠ some renamed) ∧
      d.newExactMethod? "A" "ma" "(LA;)V" = some "run" ∧
      d.newMethodNamed? "A" "ma" = some "run" := by
  have hdistinct : (overloaded.classes.values.map fun c => c.names.source).Nodup := by decide
  obtain ⟨d, hd, hscans⟩ := ofTree_scans (show "searge" ∈ overloaded.namespaces by decide)
    (show "mcp" ∈ overloaded.namespaces by decide) hdistinct
  have hcolumns : overloaded.namespaces.idxOf "searge" = 1 ∧
      overloaded.namespaces.idxOf "mcp" = 2 := by decide
  rw [hcolumns.1, hcolumns.2] at hscans
  refine ⟨hdistinct, d, hd, hscans, ?_, ?_, ?_, ?_, ?_⟩
  · rw [hscans.fields]
    decide
  · rw [hscans.fields]
    decide
  · intro renamed hrenamed
    obtain ⟨-, hall⟩ := (hscans.fieldsNamed _ _ _).1 hrenamed
    have hboth : ∀ name ∈ ["first", "second"], ∃ f ∈ overloaded.declared .field,
        MappingTree.GoesBy 1 "A" "f" f ∧ f.2.names.renamed 1 2 = name := by decide
    obtain ⟨f, hf, hgoes, hfirst⟩ := hboth "first" (by decide)
    obtain ⟨f', hf', hgoes', hsecond⟩ := hboth "second" (by decide)
    have hsame := (hall f hf hgoes).trans (hall f' hf' hgoes').symm
    rw [hfirst, hsecond] at hsame
    exact absurd hsame (by decide)
  · rw [hscans.exactMethods]
    decide
  · rw [hscans.methodsNamed]
    decide

end Dictionary

end JarRemap
