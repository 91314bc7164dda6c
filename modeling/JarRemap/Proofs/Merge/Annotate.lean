import JarRemap.Proofs.Merge.Again
import Mathlib.Data.List.Forall2

/-!
# What a source that only annotates leaves alone

A source that is not keyed by the source namespace changes classes that are there and members that
are there. Each of them keeps its place, its descriptor if it had one, and its names outside the
destinations of the source. A record that finds no such element does nothing, so it may as well be
left out.
-/

namespace JarRemap

variable {columns : List Nat}

/-- Changing one element of a list relates every element with the one in its place. -/
theorem forall₂_map_modify {α β : Type} {R : β → β → Prop} {g : α → β} {f : α → α}
    (hrefl : ∀ b, R b b) (hf : ∀ a, R (g a) (g (f a))) (l : List α) (i : Nat) :
    List.Forall₂ R (l.map g) ((l.modify i f).map g) := by
  induction l generalizing i with
  | nil =>
    rw [List.modify_nil]
    exact .nil
  | cons a l ih =>
    cases i with
    | zero =>
      rw [List.modify_zero_cons]
      exact .cons (hf a) (List.forall₂_same.2 fun b _ => hrefl b)
    | succ i =>
      rw [List.modify_succ_cons]
      exact .cons (hrefl _) (ih i)

theorem forall₂_trans {α : Type} {R : α → α → Prop} (htrans : ∀ a b c, R a b → R b c → R a c)
    {l l' l'' : List α} (h : List.Forall₂ R l l') (h' : List.Forall₂ R l' l'') :
    List.Forall₂ R l l'' := by
  induction h generalizing l'' with
  | nil => exact h'
  | cons hab _ ih =>
    cases h' with
    | cons hbc h' => exact .cons (htrans _ _ _ hab hbc) (ih h')

/-- Every later form has an earlier one. -/
theorem exists_of_forall₂_mem {α β : Type} {R : α → β → Prop} {l : List α} {l' : List β}
    (h : List.Forall₂ R l l') {b : β} (hb : b ∈ l') : ∃ a ∈ l, R a b := by
  induction h with
  | nil => cases hb
  | @cons a b' l l' hab _ ih =>
    rcases List.mem_cons.1 hb with rfl | hb
    · exact ⟨a, List.mem_cons_self, hab⟩
    · obtain ⟨a', ha', hab'⟩ := ih hb
      exact ⟨a', List.mem_cons_of_mem a ha', hab'⟩

/-- A later form of a member, with its names outside some columns, and its descriptor if it had
one. -/
def MemberMapping.Annotated (columns : List Nat) (m m' : MemberMapping) : Prop :=
  ∀ column, column ∉ columns → m.Keeps column m'

namespace ClassMapping

variable {c c' d : ClassMapping}

/-- A later form of a class, with its name outside some columns and with the same members in the
same order. -/
structure Annotated (columns : List Nat) (c c' : ClassMapping) : Prop where
  names : ∀ column, column ∉ columns → c'.names.get? column = c.names.get? column
  members : ∀ kind,
    List.Forall₂ (MemberMapping.Annotated columns) (c.members kind) (c'.members kind)

theorem Annotated.refl (columns : List Nat) (c : ClassMapping) : c.Annotated columns c :=
  ⟨fun _ _ => rfl, fun _ => List.forall₂_same.2 fun m _ _ _ => .refl _ m⟩

theorem Annotated.trans (h : c.Annotated columns c') (h' : c'.Annotated columns d) :
    c.Annotated columns d := by
  refine ⟨fun column hcolumn => (h'.names column hcolumn).trans (h.names column hcolumn), ?_⟩
  intro kind
  have htrans : ∀ a b c : MemberMapping, a.Annotated columns b → b.Annotated columns c →
      a.Annotated columns c := fun _ _ _ hab hbc column hcolumn =>
    (hab column hcolumn).trans (hbc column hcolumn)
  exact forall₂_trans htrans (h.members kind) (h'.members kind)

end ClassMapping

namespace Record

variable {v : KeyView} {r : Record} {c c' : ClassMapping}

/-- A record of a source that only annotates annotates the class it speaks of. -/
theorem Changes.annotated (hv : v.creates = false) (h : r.Changes v columns c c') :
    c.Annotated (columns.drop 1) c' := by
  have hsame : ∀ kind, List.Forall₂ (MemberMapping.Annotated (columns.drop 1)) (c.members kind)
      (c.members kind) := (ClassMapping.Annotated.refl _ c).members
  have hmember : ∀ (desc : Option String) (m : MemberMapping),
      m.Annotated (columns.drop 1) (m.annotate columns desc r) :=
    fun desc m column hcolumn => MemberMapping.keeps_annotate hcolumn desc r m
  cases h with
  | skipped => exact .refl _ c
  | type =>
    refine ⟨fun column hcolumn => Names.get?_write_of_not_mem hcolumn _ _, fun kind => ?_⟩
    cases kind <;> exact hsame _
  | @field _ _ desc i =>
    refine ⟨fun _ _ => rfl, fun kind => ?_⟩
    cases kind with
    | field => exact forall₂_map_modify (fun m _ _ => .refl _ m) (fun f => hmember _ f.member) _ _
    | method => exact hsame .method
  | newField _ _ creates => exact absurd (creates.symm.trans hv) Bool.noConfusion
  | @method _ _ desc i =>
    refine ⟨fun _ _ => rfl, fun kind => ?_⟩
    cases kind with
    | field => exact hsame .field
    | method => exact forall₂_map_modify (fun m _ _ => .refl _ m) (fun m => hmember _ m.member) _ _
  | newMethod _ _ creates => exact absurd (creates.symm.trans hv) Bool.noConfusion
  | @param _ _ _ index =>
    refine ⟨fun _ _ => rfl, fun kind => ?_⟩
    cases kind with
    | field => exact hsame .field
    | method =>
      -- a parameter has names of its own; those of its method stay
      have hnames : ∀ m : MethodMapping, (m.annotateParam columns index r).member = m.member :=
        fun _ => rfl
      exact forall₂_map_modify (fun m _ _ => .refl _ m) (fun m _ _ => .refl _ m.member) _ _
  | newParam _ creates => exact absurd (creates.symm.trans hv) Bool.noConfusion

theorem annotated_change (hv : v.creates = false) (r : Record) (c : ClassMapping) :
    c.Annotated (columns.drop 1) (r.change v columns c) :=
  (r.changes_change v columns c).annotated hv

/-- Whether the member that a record speaks of is in a class, by its key name. -/
def isIn (v : KeyView) (r : Record) (c : ClassMapping) : Bool :=
  match r.element with
  | .type => true
  | .field _ desc =>
      r.key?.any fun key => (c.members .field).any (·.fits v.column key (desc.map v.sourceDesc))
  | .method _ desc =>
      r.key?.any fun key => (c.members .method).any (·.fits v.column key (desc.map v.sourceDesc))
  | .param _ method desc _ =>
      (c.members .method).any (·.fits v.column method (desc.map v.sourceDesc))

/-- Whether the class and the member that a record speaks of are there, by their key names. -/
def isFound (v : KeyView) (classes : OrderedMap String ClassMapping) (r : Record) : Bool :=
  ((r.owner? v).bind classes.get?).any (r.isIn v)

/-- A member that no record gives another key name is there before it is annotated. -/
theorem isIn_of_annotated (hcolumn : v.column ∉ columns) (h : c.Annotated columns c')
    (hin : r.isIn v c' = true) : r.isIn v c = true := by
  have hany : ∀ kind key desc, (c'.members kind).any (·.fits v.column key desc) = true →
      (c.members kind).any (·.fits v.column key desc) = true := by
    intro kind key desc hlater
    obtain ⟨m', hm', hfits⟩ := List.any_eq_true.1 hlater
    obtain ⟨m, hm, hannotated⟩ := exists_of_forall₂_mem (h.members kind) hm'
    exact List.any_eq_true.2 ⟨m, hm, (hannotated v.column hcolumn).fits_of_fits hfits⟩
  unfold isIn at hin ⊢
  cases helement : r.element with
  | type => rfl
  | field owner desc =>
    simp only [helement] at hin ⊢
    cases hkey : r.key? with
    | none => rwa [hkey] at hin
    | some key =>
      rw [hkey] at hin
      exact hany _ _ _ hin
  | method owner desc =>
    simp only [helement] at hin ⊢
    cases hkey : r.key? with
    | none => rwa [hkey] at hin
    | some key =>
      rw [hkey] at hin
      exact hany _ _ _ hin
  | param owner method desc index =>
    simp only [helement] at hin ⊢
    exact hany _ _ _ hin

/-- Without a member to annotate, a record of a source that only annotates does nothing. -/
theorem change_eq_self (hv : v.creates = false) (h : r.isIn v c = false) :
    r.change v columns c = c := by
  have hfield : ∀ {key desc i}, c.fields.findIdx? (·.isFor v.column key desc) = some i →
      (c.members .field).any (·.fits v.column key desc) = true := by
    intro key desc i hfound
    rw [ClassMapping.members, List.any_map]
    exact List.findIdx?_isSome.symm.trans (congrArg Option.isSome hfound)
  have hmethod : ∀ {key desc i}, c.methods.findIdx? (·.isFor v.column key desc) = some i →
      (c.members .method).any (·.fits v.column key desc) = true := by
    intro key desc i hfound
    rw [ClassMapping.members, List.any_map]
    exact List.findIdx?_isSome.symm.trans (congrArg Option.isSome hfound)
  have hchange := r.changes_change v columns c
  generalize r.change v columns c = c' at hchange ⊢
  unfold isIn at h
  cases hchange with
  | skipped => rfl
  | type element =>
    rw [element] at h
    cases h
  | field element keyed found =>
    rw [element, keyed] at h
    exact absurd (hfield found) (Bool.eq_false_iff.1 h)
  | newField _ _ creates => exact absurd (creates.symm.trans hv) Bool.noConfusion
  | method element keyed found =>
    rw [element, keyed] at h
    exact absurd (hmethod found) (Bool.eq_false_iff.1 h)
  | newMethod _ _ creates => exact absurd (creates.symm.trans hv) Bool.noConfusion
  | param element found =>
    rw [element] at h
    exact absurd (hmethod found) (Bool.eq_false_iff.1 h)
  | newParam _ creates => exact absurd (creates.symm.trans hv) Bool.noConfusion

end Record

namespace MappingTree

variable {v : KeyView} {r : Record} {records : List Record}
  {start classes : OrderedMap String ClassMapping}

/-- Whether every class that a source can speak of is there. -/
def Knows (v : KeyView) (classes : OrderedMap String ClassMapping) : Prop :=
  ∀ key name, v.class? key = some name → (classes.get? name).isSome

theorem Knows.apply (h : Knows v classes) (columns : List Nat) (r : Record) :
    Knows v (apply v columns classes r) :=
  fun key name hname => isSome_get?_apply (h key name hname) r

theorem Knows.foldl_apply (h : Knows v classes) (columns : List Nat) (records : List Record) :
    Knows v (records.foldl (MappingTree.apply v columns) classes) := by
  induction records generalizing classes with
  | nil => exact h
  | cons r records ih => exact ih (h.apply columns r)

/-- A record that finds no element leaves all classes. -/
theorem apply_eq_self (hv : v.creates = false) (hknows : Knows v classes)
    (h : r.isFound v classes = false) : apply v columns classes r = classes := by
  have howner : ∀ name, r.owner? v = some name → (classes.get? name).isSome := by
    intro name hname
    obtain ⟨key, hkey⟩ := exists_class?_of_owner? hname
    exact hknows key name hkey
  apply OrderedMap.ext_get? (keys_apply howner)
  intro name
  rw [get?_apply]
  by_cases hname : r.owner? v = some name
  · obtain ⟨c, hc⟩ := Option.isSome_iff_exists.1 (howner name hname)
    rw [Record.isFound, hname, Option.bind_some, hc, Option.any_some] at h
    rw [if_pos hname, ownerIn, hc, Option.some_or, Option.map_some, Record.change_eq_self hv h]
  · rw [if_neg hname]

/-- Later forms of the same classes in the same order. -/
def Annotates (columns : List Nat) (classes classes' : OrderedMap String ClassMapping) : Prop :=
  List.Forall₂ (fun e e' => e.1 = e'.1 ∧ e.2.Annotated columns e'.2) classes.entries classes'.entries

theorem annotates_refl (columns : List Nat) (classes : OrderedMap String ClassMapping) :
    Annotates columns classes classes :=
  List.forall₂_same.2 fun _ _ => ⟨rfl, .refl columns _⟩

theorem Annotates.trans {last : OrderedMap String ClassMapping} (h : Annotates columns start classes)
    (h' : Annotates columns classes last) : Annotates columns start last :=
  forall₂_trans (fun _ _ _ hab hbc => ⟨hab.1.trans hbc.1, hab.2.trans hbc.2⟩) h h'

/-- Changing the class of a key by an annotation annotates all classes. -/
theorem annotates_modify {change : ClassMapping → ClassMapping}
    (hchange : ∀ c : ClassMapping, c.Annotated columns (change c)) (name : String) :
    Annotates columns classes (classes.modify name change) := by
  rw [Annotates, OrderedMap.modify, List.forall₂_map_right_iff, List.forall₂_same]
  intro e _
  by_cases h : e.1 = name
  · rw [if_pos h]
    exact ⟨rfl, hchange e.2⟩
  · rw [if_neg h]
    exact ⟨rfl, .refl columns e.2⟩

/-- One record of a source that only annotates. -/
theorem annotates_apply (hv : v.creates = false) (hknows : Knows v classes) (r : Record) :
    Annotates (columns.drop 1) classes (apply v columns classes r) := by
  cases hname : r.owner? v with
  | none =>
    rw [apply_eq, hname]
    exact annotates_refl _ classes
  | some name =>
    obtain ⟨key, hkey⟩ := exists_class?_of_owner? hname
    rw [apply_of_isSome hname (hknows key name hkey)]
    exact annotates_modify (Record.annotated_change hv r) name

/-- A source that only annotates. -/
theorem annotates_foldl_apply (hv : v.creates = false) (hknows : Knows v classes)
    (records : List Record) :
    Annotates (columns.drop 1) classes (records.foldl (apply v columns) classes) := by
  induction records generalizing classes with
  | nil => exact annotates_refl _ classes
  | cons r records ih => exact (annotates_apply hv hknows r).trans (ih (hknows.apply columns r))

/-- What is found by a key later is found by it before, if no record writes keys. -/
theorem isFound_of_annotates (hcolumn : v.column ∉ columns) (h : Annotates columns start classes)
    (hfound : r.isFound v classes = true) : r.isFound v start = true := by
  rw [Record.isFound, Option.any_eq_true] at hfound ⊢
  obtain ⟨c', hc', hin⟩ := hfound
  obtain ⟨name, hname, hget⟩ := Option.bind_eq_some_iff.1 hc'
  obtain ⟨⟨_, c⟩, hmem, rfl, hannotated⟩ :=
    exists_of_forall₂_mem h (OrderedMap.get?_eq_some_iff.1 hget)
  refine ⟨c, ?_, Record.isIn_of_annotated hcolumn hannotated hin⟩
  rw [hname]
  exact OrderedMap.get?_eq_some_iff.2 hmem

/-- If no record writes keys, the records that find no element at the start may be left out. -/
theorem foldl_apply_filter (hv : v.creates = false) (hcolumn : v.column ∉ columns.drop 1)
    (hstart : Annotates (columns.drop 1) start classes) (hknows : Knows v classes) :
    (records.filter (·.isFound v start)).foldl (apply v columns) classes =
      records.foldl (apply v columns) classes := by
  induction records generalizing classes with
  | nil => rfl
  | cons r records ih =>
    have hnext := ih (hstart.trans (annotates_apply hv hknows r)) (hknows.apply columns r)
    cases hfound : r.isFound v start with
    | true => rw [List.filter_cons, if_pos hfound, List.foldl_cons, List.foldl_cons, hnext]
    | false =>
      have hnot : r.isFound v classes = false := by
        rw [← Bool.not_eq_true] at hfound ⊢
        exact fun h => hfound (isFound_of_annotates hcolumn hstart h)
      rw [apply_eq_self hv hknows hnot] at hnext
      rw [List.filter_cons, hfound, if_neg Bool.false_ne_true, List.foldl_cons,
        apply_eq_self hv hknows hnot, hnext]

end MappingTree

end JarRemap
