import JarRemap.Proofs.Merge.Again
import Mathlib.Data.List.Forall2

/-!
# Two merges side by side

Records that differ in their names only are merged into two trees of the same classes and members.
What the trees are told apart by is a relation between names: if it is kept by what the records
write, and knows the names by which elements are found, every record finds the same element in both
trees, and the trees have the same classes and members in the same order.
-/

namespace JarRemap

theorem any_eq_of_forall₂ {α β : Type} {R : α → β → Prop} {l : List α} {l' : List β} {p : α → Bool}
    {p' : β → Bool} (h : List.Forall₂ R l l') (hp : ∀ a b, R a b → p a = p' b) :
    l.any p = l'.any p' := by
  induction h with
  | nil => rfl
  | cons hab _ ih => rw [List.any_cons, List.any_cons, hp _ _ hab, ih]

/-- Acts that fit related elements alike, and keep them related, keep lists of them related. -/
theorem Act.forall₂_run {α : Type} {R : α → α → Prop} {a a' : Act α} {l m : List α}
    (h : List.Forall₂ R l m) (hfits : ∀ x y, R x y → a.fits x = a'.fits y)
    (hchange : ∀ x y, R x y → R (a.change x) (a'.change y))
    (hnew : List.Forall₂ R (a.run []) (a'.run [])) : List.Forall₂ R (a.run l) (a'.run m) := by
  induction h with
  | nil => exact hnew
  | @cons x y l m hxy hrest ih =>
    have hsame := hfits x y hxy
    cases hx : a.fits x with
    | true =>
      rw [run_cons_of_fits hx, run_cons_of_fits (hsame ▸ hx)]
      exact .cons (hchange x y hxy) hrest
    | false =>
      rw [run_cons_of_not_fits hx, run_cons_of_not_fits (hsame ▸ hx)]
      exact .cons hxy ih

/-- Two parameters that differ in their names only, and these are related. -/
structure ParamMapping.Alike (S : Names → Names → Prop) (p p' : ParamMapping) : Prop where
  index : p'.index = p.index
  names : S p.names p'.names
  comment : p'.comment = p.comment

structure FieldMapping.Alike (S : Names → Names → Prop) (f f' : FieldMapping) : Prop where
  names : S f.names f'.names
  desc : f'.desc = f.desc
  comment : f'.comment = f.comment

structure MethodMapping.Alike (S : Names → Names → Prop) (m m' : MethodMapping) : Prop where
  names : S m.names m'.names
  desc : m'.desc = m.desc
  comment : m'.comment = m.comment
  params : List.Forall₂ (ParamMapping.Alike S) m.params m'.params

/-- Two classes with the same members in the same order, that differ in names only. -/
structure ClassMapping.Alike (S : Names → Names → Prop) (c c' : ClassMapping) : Prop where
  names : S c.names c'.names
  comment : c'.comment = c.comment
  fields : List.Forall₂ (FieldMapping.Alike S) c.fields c'.fields
  methods : List.Forall₂ (MethodMapping.Alike S) c.methods c'.methods

/-- The same classes in the same order, that differ in names only. -/
def MappingTree.AlikeIn (S : Names → Names → Prop)
    (classes classes' : OrderedMap String ClassMapping) : Prop :=
  List.Forall₂ (fun e e' => e'.1 = e.1 ∧ e.2.Alike S e'.2) classes.entries classes'.entries

/-- Two records that differ in their names only, and write related names into related ones. -/
structure Record.Alike (S : Names → Names → Prop) (columns columns' : List Nat) (r r' : Record) :
    Prop where
  element : r'.element = r.element
  key : r'.key? = r.key?
  comment : r'.comment = r.comment
  write : ∀ start ≤ 1, ∀ names names', S names names' →
    S (names.write columns r start) (names'.write columns' r' start)

/-- A relation that knows the names by which a source finds elements, and holds of new elements. -/
structure KeyView.Sees (v : KeyView) (S : Names → Names → Prop) : Prop where
  key : ∀ names names', S names names' → names'.get? v.column = names.get? v.column
  ofSource : ∀ name, S (.ofSource name) (.ofSource name)
  nil : S [] []

section Step

variable {S : Names → Names → Prop} {v : KeyView} {columns columns' : List Nat} {r r' : Record}

theorem Record.Alike.commentOver (h : r.Alike S columns columns' r') (before : Option String) :
    r'.commentOver before = r.commentOver before := by
  rw [Record.commentOver, Record.commentOver, h.comment]

theorem FieldMapping.Alike.annotate (h : r.Alike S columns columns' r') (desc : Option String)
    {f f' : FieldMapping} (hf : f.Alike S f') :
    (f.annotate columns desc r).Alike S (f'.annotate columns' desc r') where
  names := h.write 1 (Nat.le_refl 1) _ _ hf.names
  desc := congrArg (· <|> desc) hf.desc
  comment := (h.commentOver f'.comment).trans (congrArg r.commentOver hf.comment)

theorem MethodMapping.Alike.annotate (h : r.Alike S columns columns' r') (desc : Option String)
    {m m' : MethodMapping} (hm : m.Alike S m') :
    (m.annotate columns desc r).Alike S (m'.annotate columns' desc r') where
  names := h.write 1 (Nat.le_refl 1) _ _ hm.names
  desc := congrArg (· <|> desc) hm.desc
  comment := (h.commentOver m'.comment).trans (congrArg r.commentOver hm.comment)
  params := hm.params

theorem ParamMapping.Alike.annotate (h : r.Alike S columns columns' r') {p p' : ParamMapping}
    (hp : p.Alike S p') : (p.annotate columns r).Alike S (p'.annotate columns' r') where
  index := hp.index
  names := h.write 0 (Nat.zero_le 1) _ _ hp.names
  comment := (h.commentOver p'.comment).trans (congrArg r.commentOver hp.comment)

theorem MethodMapping.Alike.annotateParam (hv : v.Sees S) (h : r.Alike S columns columns' r')
    (index : UInt16) {m m' : MethodMapping} (hm : m.Alike S m') :
    (m.annotateParam columns index r).Alike S (m'.annotateParam columns' index r') := by
  refine ⟨hm.names, hm.desc, hm.comment, ?_⟩
  rw [MethodMapping.params_annotateParam, MethodMapping.params_annotateParam]
  refine Act.forall₂_run hm.params (fun p p' hp => ?_) (fun p p' hp => hp.annotate h) ?_
  · exact congrArg (fun i => decide (i = index)) hp.index.symm
  · exact .cons (.annotate h ⟨rfl, hv.nil, rfl⟩) .nil

/-- A record that finds one of two fields by its key finds the other one. -/
theorem FieldMapping.Alike.isFor (hv : v.Sees S) {f f' : FieldMapping} (hf : f.Alike S f')
    (key : String) (desc : Option String) :
    f.isFor v.column key desc = f'.isFor v.column key desc := by
  rw [FieldMapping.isFor, FieldMapping.isFor, hv.key _ _ hf.names, hf.desc]

theorem MethodMapping.Alike.isFor (hv : v.Sees S) {m m' : MethodMapping} (hm : m.Alike S m')
    (key : String) (desc : Option String) :
    m.isFor v.column key desc = m'.isFor v.column key desc := by
  rw [MethodMapping.isFor, MethodMapping.isFor, hv.key _ _ hm.names, hm.desc]

theorem ClassMapping.alike_ofSource (hv : v.Sees S) (name : String) :
    (ClassMapping.ofSource name).Alike S (.ofSource name) :=
  ⟨hv.ofSource name, rfl, .nil, .nil⟩

/-- What is made of a base that is there only if the source may add elements. -/
theorem Act.forall₂_run_nil {α : Type} {R : α → α → Prop} {a a' : Act α} {b : α} {creates : Bool}
    (ha : a.base = if creates then some b else none)
    (ha' : a'.base = if creates then some b else none) (h : R (a.change b) (a'.change b)) :
    List.Forall₂ R (a.run []) (a'.run []) := by
  rw [run_nil, run_nil, ha, ha']
  cases creates with
  | true => exact .cons h .nil
  | false => exact .nil

/-- Two records make classes of classes that differ in names only. -/
theorem ClassMapping.Alike.change (hv : v.Sees S) (h : r.Alike S columns columns' r')
    {c c' : ClassMapping} (hc : c.Alike S c') :
    (r.change v columns c).Alike S (r'.change v columns' c') := by
  rw [Record.change, Record.change, h.element]
  cases r.element with
  | type =>
    refine ⟨h.write 1 (Nat.le_refl 1) _ _ hc.names, ?_, hc.fields, hc.methods⟩
    exact (h.commentOver c'.comment).trans (congrArg r.commentOver hc.comment)
  | field owner desc =>
    dsimp only
    cases hkey : r.key? with
    | none =>
      have hkey' := h.key.trans hkey
      rw [annotateField, annotateField, hkey, hkey']
      exact hc
    | some key =>
      rw [annotateField_eq_run hkey, annotateField_eq_run (h.key.trans hkey)]
      refine ⟨hc.names, hc.comment, ?_, hc.methods⟩
      refine Act.forall₂_run hc.fields (fun _ _ hf => hf.isFor hv key _)
        (fun _ _ hf => hf.annotate h _) ?_
      exact Act.forall₂_run_nil rfl rfl (.annotate h _ ⟨hv.ofSource key, rfl, rfl⟩)
  | method owner desc =>
    dsimp only
    cases hkey : r.key? with
    | none =>
      have hkey' := h.key.trans hkey
      rw [annotateMethod, annotateMethod, hkey, hkey']
      exact hc
    | some key =>
      rw [annotateMethod_eq_run hkey, annotateMethod_eq_run (h.key.trans hkey)]
      refine ⟨hc.names, hc.comment, hc.fields, ?_⟩
      refine Act.forall₂_run hc.methods (fun _ _ hm => hm.isFor hv key _)
        (fun _ _ hm => hm.annotate h _) ?_
      exact Act.forall₂_run_nil rfl rfl (.annotate h _ ⟨hv.ofSource key, rfl, rfl, .nil⟩)
  | param owner method desc index =>
    dsimp only
    rw [annotateParam_eq_run, annotateParam_eq_run]
    refine ⟨hc.names, hc.comment, hc.fields, ?_⟩
    refine Act.forall₂_run hc.methods (fun _ _ hm => hm.isFor hv method _)
      (fun _ _ hm => hm.annotateParam hv h index) ?_
    exact Act.forall₂_run_nil rfl rfl
      (.annotateParam hv h index ⟨hv.ofSource method, rfl, rfl, .nil⟩)

theorem Record.Alike.owner?_eq (h : r.Alike S columns columns' r') : r'.owner? v = r.owner? v := by
  rw [Record.owner?, Record.owner?, h.element, h.key]

theorem Record.Alike.addsOwner_eq (h : r.Alike S columns columns' r') :
    r'.addsOwner v = r.addsOwner v := by
  rw [Record.addsOwner, Record.addsOwner, h.element]

end Step

namespace MappingTree

variable {S : Names → Names → Prop} {v : KeyView} {columns columns' : List Nat}
  {classes classes' : OrderedMap String ClassMapping}

theorem AlikeIn.insertNew (h : AlikeIn S classes classes') (name : String) {c c' : ClassMapping}
    (hc : c.Alike S c') : AlikeIn S (classes.insertNew name c) (classes'.insertNew name c') := by
  have hthere : classes.contains name = classes'.contains name :=
    any_eq_of_forall₂ h fun e e' he => congrArg (fun key => decide (key = name)) he.1.symm
  unfold OrderedMap.insertNew
  split
  · next hold =>
    rw [dif_pos (hthere ▸ hold)]
    exact h
  · next hnew =>
    rw [dif_neg (hthere ▸ hnew)]
    exact List.rel_append h (.cons ⟨rfl, hc⟩ .nil)

theorem AlikeIn.modify (h : AlikeIn S classes classes') (name : String)
    {change change' : ClassMapping → ClassMapping}
    (hchange : ∀ c c', c.Alike S c' → (change c).Alike S (change' c')) :
    AlikeIn S (classes.modify name change) (classes'.modify name change') := by
  rw [AlikeIn, OrderedMap.modify, OrderedMap.modify, List.forall₂_map_left_iff,
    List.forall₂_map_right_iff]
  refine List.Forall₂.imp (fun e e' he => ?_) h
  by_cases hname : e.1 = name
  · rw [if_pos hname, if_pos (he.1.trans hname)]
    exact ⟨he.1, hchange _ _ he.2⟩
  · rw [if_neg hname, if_neg (he.1 ▸ hname)]
    exact he

/-- One record on each side. -/
theorem AlikeIn.apply (hv : v.Sees S) {r r' : Record} (hr : r.Alike S columns columns' r')
    (h : AlikeIn S classes classes') :
    AlikeIn S (apply v columns classes r) (MappingTree.apply v columns' classes' r') := by
  rw [apply_eq, apply_eq, hr.owner?_eq, hr.addsOwner_eq]
  cases r.owner? v with
  | none => exact h
  | some name =>
    dsimp only
    refine AlikeIn.modify ?_ name fun c c' hc => hc.change hv hr
    split
    · exact h.insertNew name (ClassMapping.alike_ofSource hv name)
    · exact h

/-- All records on each side. -/
theorem AlikeIn.foldl_apply (hv : v.Sees S) {records records' : List Record}
    (hrecords : List.Forall₂ (Record.Alike S columns columns') records records')
    (h : AlikeIn S classes classes') :
    AlikeIn S (records.foldl (MappingTree.apply v columns) classes)
      (records'.foldl (MappingTree.apply v columns') classes') := by
  induction hrecords generalizing classes classes' with
  | nil => exact h
  | cons hr _ ih => exact ih (h.apply hv hr)

/-- Classes whose names are related with themselves. -/
theorem alikeIn_self (h : ∀ name c, classes.get? name = some c → c.Alike S c) :
    AlikeIn S classes classes :=
  List.forall₂_same.2 fun e he => ⟨rfl, h e.1 e.2 (OrderedMap.get?_eq_some_iff.2 he)⟩

end MappingTree

end JarRemap
