import JarRemap.Proofs.Dictionary.Lookup
import JarRemap.Proofs.Merge.First
import JarRemap.Proofs.Merge.Replay
import Mathlib.Data.List.Basic

/-!
# Records that come again

Records that are applied a second time change nothing, as long as every one of them hits what it hit
before. A record of a field or a method does: what it changes has its descriptor from then on. A
record of a parameter leaves the descriptor of its method to others, so it is asked of these records
that their methods still fit in the end.
-/

namespace JarRemap

open Act (Grows Along)

namespace MemberMapping

variable {columns : List Nat} {column : Nat} {key : String} {desc : Option String} {r : Record}
  {x y z m : MemberMapping}

/-- Whether a record of a key and a descriptor speaks of a member, by its name in a column. -/
def fits (column : Nat) (key : String) (desc : Option String) (m : MemberMapping) : Bool :=
  m.names.get? column == some key && descriptorsFit m.desc desc

theorem fits_iff : m.fits column key desc = true ↔
    m.names.get? column = some key ∧ ∀ a b, m.desc = some a → desc = some b → a = b := by
  rw [fits, Bool.and_eq_true, beq_iff_eq]
  refine and_congr_right fun _ => ?_
  cases m.desc <;> cases desc <;> simp [descriptorsFit]

/-- A member that is made for a record fits it. -/
theorem fits_ofSource {v : KeyView} (hcreates : v.creates = true) (key : String)
    (desc : Option String) : fits v.column key desc ⟨.ofSource key, none⟩ = true := by
  rw [v.column_eq_zero hcreates]
  exact fits_iff.2 ⟨rfl, nofun⟩

/-- A later form of a member has its name in the column of the keys, and its descriptor if it had
one. -/
structure Keeps (column : Nat) (m z : MemberMapping) : Prop where
  name : z.names.get? column = m.names.get? column
  desc : m.desc.isSome → z.desc = m.desc

/-- A member on its way from one form to a later one, whose descriptor it has already. -/
structure Between (x y z : MemberMapping) : Prop where
  names : x.names.Between y.names z.names
  desc : y.desc = z.desc

theorem Keeps.refl (column : Nat) (m : MemberMapping) : m.Keeps column m := ⟨rfl, fun _ => rfl⟩

theorem Keeps.trans (h : x.Keeps column y) (h' : y.Keeps column z) : x.Keeps column z := by
  refine ⟨h'.name.trans h.name, fun hdesc => ?_⟩
  have hsame := h.desc hdesc
  rw [← hsame] at hdesc ⊢
  exact h'.desc hdesc

theorem keeps_annotate (hcolumn : column ∉ columns.drop 1) (desc : Option String) (r : Record)
    (m : MemberMapping) : m.Keeps column (m.annotate columns desc r) := by
  refine ⟨Names.get?_write_of_not_mem hcolumn m.names r, fun hdesc => ?_⟩
  obtain ⟨d, hd⟩ := Option.isSome_iff_exists.1 hdesc
  rw [annotate, hd]
  rfl

theorem Keeps.fits_of_fits (h : x.Keeps column z) (hfits : z.fits column key desc = true) :
    x.fits column key desc = true := by
  rw [fits_iff] at hfits ⊢
  refine ⟨h.name.symm.trans hfits.1, fun a b ha hb => hfits.2 a b ?_ hb⟩
  rw [h.desc (by rw [ha]; rfl), ha]

theorem Between.fits_eq (h : x.Between y z) (hkeeps : x.Keeps column z) :
    y.fits column key desc = z.fits column key desc := by
  have hname : y.names.get? column = z.names.get? column := by
    rcases h.names.column column with hold | hnew
    · rw [hold, hkeeps.name]
    · exact hnew
  rw [fits, fits, hname, h.desc]

/-- What has been changed by a record with a descriptor fits that descriptor from then on. -/
theorem fits_of_keeps_annotate (hcolumn : column ∉ columns.drop 1)
    (hfits : x.fits column key desc = true) (h : (x.annotate columns desc r).Keeps column z) :
    z.fits column key desc = true := by
  rw [fits_iff] at hfits ⊢
  refine ⟨((keeps_annotate hcolumn desc r x).trans h).name.trans hfits.1, ?_⟩
  rintro a b ha rfl
  cases hold : x.desc with
  | some d =>
    have hsame := ((keeps_annotate hcolumn (some b) r x).trans h).desc (by rw [hold]; rfl)
    rw [ha, hold] at hsame
    cases hsame
    exact hfits.2 a b hold rfl
  | none =>
    have hfilled : (x.annotate columns (some b) r).desc = some b := by
      rw [annotate, hold]
      rfl
    have hsame := h.desc (by rw [hfilled]; rfl)
    rw [ha, hfilled] at hsame
    exact Option.some.inj hsame

theorem Between.annotate (h : x.Between y z) (hkeeps : (x.annotate columns desc r).Keeps column z) :
    (x.annotate columns desc r).Between (y.annotate columns desc r) z := by
  refine ⟨h.names.write columns r 1, ?_⟩
  rw [MemberMapping.annotate, h.desc]
  cases hlast : z.desc with
  | some d => rfl
  | none =>
    -- a descriptor of the record would have been filled in the first time
    cases desc with
    | none => rfl
    | some d =>
      have hfilled : (x.annotate columns (some d) r).desc.isSome := by
        rw [MemberMapping.annotate]
        cases x.desc <;> rfl
      have hsame := hkeeps.desc hfilled
      rw [← hsame, hlast] at hfilled
      cases hfilled

end MemberMapping

namespace ParamMapping

/-- A later form of a parameter has its index. -/
def Keeps (p z : ParamMapping) : Prop := z.index = p.index

theorem Keeps.refl (p : ParamMapping) : p.Keeps p := rfl

/-- A parameter on its way from one form to a later one. -/
structure Between (p q z : ParamMapping) : Prop where
  index : q.index = z.index
  names : p.names.Between q.names z.names
  comment : Either p.comment q.comment z.comment

/-- What a record of a parameter does to the parameters of its method. -/
def act (columns : List Nat) (index : UInt16) (r : Record) : Act ParamMapping where
  fits p := p.index = index
  change := annotate columns r
  base := some { index }

theorem Between.eq {q z : ParamMapping} (h : Between z q z) : q = z := by
  obtain ⟨index, names, comment⟩ := q
  have hnames := h.names.eq
  have hcomment := h.comment.elim id id
  have hindex := h.index
  subst hnames hcomment hindex
  rfl

theorem respects_act (columns : List Nat) (index : UInt16) (r : Record) :
    (act columns index r).Respects Keeps Between where
  stays x y z _ h := by
    change decide (y.index = index) = decide (z.index = index)
    rw [h.index]
  earlier x z h hfits := by
    change decide (x.index = index) = true
    rw [← h]
    exact hfits
  step x y z _ h := ⟨h.index, h.names.write columns r 0, r.either_commentOver h.comment⟩
  start x z _ := ⟨rfl, .start _ _, .inr rfl⟩
  made b hb z h := by
    cases hb
    exact ⟨decide_eq_true h, h⟩

theorem grows_act (columns : List Nat) (index : UInt16) (r : Record) (params : List ParamMapping) :
    Grows Keeps true params ((act columns index r).run params) := by
  refine Act.grows_run Keeps.refl (fun p => ?_) (fun h => ?_) params
  · exact .refl p
  · cases h

end ParamMapping

namespace FieldMapping

variable {columns : List Nat} {column : Nat} {desc : Option String} {r : Record}

def Keeps (column : Nat) (f z : FieldMapping) : Prop := f.member.Keeps column z.member

/-- A field on its way from one form to a later one. -/
structure Between (f g z : FieldMapping) : Prop where
  member : f.member.Between g.member z.member
  comment : Either f.comment g.comment z.comment

theorem Between.eq {g z : FieldMapping} (h : Between z g z) : g = z := by
  obtain ⟨names, desc, comment⟩ := g
  have hnames := h.member.names.eq
  have hdesc := h.member.desc
  have hcomment := h.comment.elim id id
  obtain rfl : names = z.names := hnames
  obtain rfl : desc = z.desc := hdesc
  subst hcomment
  rfl

/-- What a record of a field does to the fields of its class. -/
def act (v : KeyView) (columns : List Nat) (key : String) (desc : Option String) (r : Record) :
    Act FieldMapping where
  fits := (·.isFor v.column key desc)
  change := annotate columns desc r
  base := if v.creates then some { names := .ofSource key } else none

variable {v : KeyView} {key : String}

theorem keeps_annotate (hcolumn : column ∉ columns.drop 1) (desc : Option String) (r : Record)
    (f : FieldMapping) : f.Keeps column (f.annotate columns desc r) :=
  MemberMapping.keeps_annotate hcolumn desc r f.member

/-- What a record has changed, it would change again. -/
theorem fits_of_keeps (hcolumn : v.column ∉ columns.drop 1) {f z : FieldMapping}
    (hfits : (act v columns key desc r).fits f = true)
    (h : ((act v columns key desc r).change f).Keeps v.column z) :
    (act v columns key desc r).fits z = true :=
  MemberMapping.fits_of_keeps_annotate (x := f.member) hcolumn hfits h

theorem respects_act (hcolumn : v.column ∉ columns.drop 1) :
    (act v columns key desc r).Respects (Keeps v.column) Between where
  stays _ _ _ hkeeps h := h.member.fits_eq hkeeps
  earlier _ _ h hfits := h.fits_of_fits hfits
  step _ _ _ hkeeps h := ⟨h.member.annotate hkeeps, r.either_commentOver h.comment⟩
  start _ _ _ := ⟨⟨.start _ _, rfl⟩, .inr rfl⟩
  made b hb z h := by
    obtain ⟨hcreates, hb⟩ := Option.ite_none_right_eq_some.1 hb
    cases hb
    have hbase : (act v columns key desc r).fits { names := .ofSource key } = true :=
      MemberMapping.fits_ofSource hcreates key desc
    exact ⟨fits_of_keeps hcolumn hbase h, (keeps_annotate hcolumn desc r _).trans h⟩

end FieldMapping

namespace MethodMapping

variable {columns : List Nat} {column : Nat} {desc : Option String} {r : Record} {v : KeyView}
  {key : String} {index : UInt16} {x y z m : MethodMapping}

/-- A later form of a method has all its parameters, and may have more. -/
structure Keeps (column : Nat) (m z : MethodMapping) : Prop where
  member : m.member.Keeps column z.member
  params : Grows ParamMapping.Keeps true m.params z.params

/-- A method on its way from one form to a later one. -/
structure Between (m n z : MethodMapping) : Prop where
  member : m.member.Between n.member z.member
  comment : Either m.comment n.comment z.comment
  params : Along ParamMapping.Keeps ParamMapping.Between m.params n.params z.params

theorem Between.eq (h : Between z y z) : y = z := by
  obtain ⟨names, desc, comment, params⟩ := y
  have hnames := h.member.names.eq
  have hdesc := h.member.desc
  have hcomment := h.comment.elim id id
  have hparams := h.params.eq (fun _ _ => ParamMapping.Between.eq) rfl
  obtain rfl : names = z.names := hnames
  obtain rfl : desc = z.desc := hdesc
  subst hcomment hparams
  rfl

theorem Keeps.refl (column : Nat) (m : MethodMapping) : m.Keeps column m :=
  ⟨.refl column _, .refl ParamMapping.Keeps.refl _⟩

theorem Keeps.trans (h : x.Keeps column y) (h' : y.Keeps column z) : x.Keeps column z :=
  ⟨h.member.trans h'.member, h.params.trans (fun _ _ _ hpq hqz => hqz.trans hpq) h'.params⟩

theorem Between.start (h : x.Keeps column z) : Between x z z where
  member := ⟨.start _ _, rfl⟩
  comment := .inr rfl
  params := .start (fun _ _ _ => ⟨rfl, .start _ _, .inr rfl⟩) h.params

/-- What a record of a method does to the methods of its class. -/
def act (v : KeyView) (columns : List Nat) (key : String) (desc : Option String) (r : Record) :
    Act MethodMapping where
  fits := (·.isFor v.column key desc)
  change := annotate columns desc r
  base := if v.creates then some { names := .ofSource key } else none

/-- What a record of a parameter does to the methods of its class. -/
def paramAct (v : KeyView) (columns : List Nat) (key : String) (desc : Option String)
    (index : UInt16) (r : Record) : Act MethodMapping where
  fits := (·.isFor v.column key desc)
  change := annotateParam columns index r
  base := if v.creates then some { names := .ofSource key, desc } else none

theorem keeps_annotate (hcolumn : column ∉ columns.drop 1) (desc : Option String) (r : Record)
    (m : MethodMapping) : m.Keeps column (m.annotate columns desc r) :=
  ⟨MemberMapping.keeps_annotate hcolumn desc r m.member, .refl ParamMapping.Keeps.refl _⟩

theorem params_annotateParam (columns : List Nat) (index : UInt16) (r : Record)
    (m : MethodMapping) :
    (m.annotateParam columns index r).params = (ParamMapping.act columns index r).run m.params :=
  rfl

theorem keeps_annotateParam (columns : List Nat) (index : UInt16) (r : Record)
    (m : MethodMapping) : m.Keeps column (m.annotateParam columns index r) :=
  ⟨.refl column _, ParamMapping.grows_act columns index r m.params⟩

/-- What a record has changed, it would change again. -/
theorem fits_of_keeps (hcolumn : v.column ∉ columns.drop 1)
    (hfits : (act v columns key desc r).fits m = true)
    (h : ((act v columns key desc r).change m).Keeps v.column z) :
    (act v columns key desc r).fits z = true :=
  MemberMapping.fits_of_keeps_annotate (x := m.member) hcolumn hfits h.member

theorem respects_act (hcolumn : v.column ∉ columns.drop 1) :
    (act v columns key desc r).Respects (Keeps v.column) Between where
  stays _ _ _ hkeeps h := h.member.fits_eq hkeeps.member
  earlier _ _ h hfits := h.member.fits_of_fits hfits
  step _ _ _ hkeeps h :=
    ⟨h.member.annotate hkeeps.member, r.either_commentOver h.comment, h.params⟩
  start _ _ h := .start h
  made b hb z h := by
    obtain ⟨hcreates, hb⟩ := Option.ite_none_right_eq_some.1 hb
    cases hb
    have hbase : (act v columns key desc r).fits { names := .ofSource key } = true :=
      MemberMapping.fits_ofSource hcreates key desc
    exact ⟨fits_of_keeps hcolumn hbase h, (keeps_annotate hcolumn desc r _).trans h⟩

/-- The parameters of a method are changed a second time as they were the first. -/
theorem Between.annotateParam (h : Between x y z)
    (hkeeps : (x.annotateParam columns index r).Keeps column z) :
    Between (x.annotateParam columns index r) (y.annotateParam columns index r) z := by
  refine ⟨h.member, h.comment, ?_⟩
  have hgrows := hkeeps.params
  rw [params_annotateParam] at hgrows ⊢
  exact h.params.run (ParamMapping.respects_act columns index r) nofun hgrows
    (Act.hits_of_change (fun _ _ hfits hsame => decide_eq_true
      (hsame.trans (of_decide_eq_true hfits))) hgrows)

theorem respects_paramAct :
    (paramAct v columns key desc index r).Respects (Keeps v.column) Between where
  stays _ _ _ hkeeps h := h.member.fits_eq hkeeps.member
  earlier _ _ h hfits := h.member.fits_of_fits hfits
  step _ _ _ hkeeps h := h.annotateParam hkeeps
  start _ _ h := .start h
  made b hb z h := by
    obtain ⟨hcreates, hb⟩ := Option.ite_none_right_eq_some.1 hb
    cases hb
    have hlater : Keeps v.column { names := .ofSource key, desc } z :=
      (keeps_annotateParam columns index r _).trans h
    have hname : z.member.names.get? v.column = some key := by
      refine hlater.member.name.trans ?_
      rw [v.column_eq_zero hcreates]
      rfl
    have hfits : z.member.fits v.column key desc = true := by
      refine MemberMapping.fits_iff.2 ⟨hname, ?_⟩
      rintro a b ha rfl
      exact Option.some.inj (ha.symm.trans (hlater.member.desc rfl))
    exact ⟨hfits, hlater⟩

end MethodMapping

/-- Whether the method that a record of a parameter is put at in a class still fits the record in a
later form of the class. -/
def Record.fitsLater (v : KeyView) (r : Record) (c z : ClassMapping) : Bool :=
  match r.element with
  | .type | .field .. | .method .. => true
  | .param _ method desc _ =>
      match c.methods.findIdx? (·.isFor v.column method (desc.map v.sourceDesc)) with
      | none => true
      | some i => z.methods[i]?.all (·.isFor v.column method (desc.map v.sourceDesc))

/-- In a class without methods no record of a parameter is put at one. -/
theorem Record.fitsLater_ofSource (v : KeyView) (r : Record) (name : String) (z : ClassMapping) :
    r.fitsLater v (.ofSource name) z = true := by
  unfold fitsLater
  split <;> rfl

namespace ClassMapping

variable {v : KeyView} {columns : List Nat} {r : Record} {c d z : ClassMapping}
  {desc : Option String}

/-- A later form of a class has all its members, and more of them only if the source may add any. -/
structure Keeps (v : KeyView) (c z : ClassMapping) : Prop where
  fields : Grows (FieldMapping.Keeps v.column) v.creates c.fields z.fields
  methods : Grows (MethodMapping.Keeps v.column) v.creates c.methods z.methods

/-- A class on its way from one form to a later one. -/
structure Between (v : KeyView) (c d z : ClassMapping) : Prop where
  names : c.names.Between d.names z.names
  comment : Either c.comment d.comment z.comment
  fields : Along (FieldMapping.Keeps v.column) FieldMapping.Between c.fields d.fields z.fields
  methods : Along (MethodMapping.Keeps v.column) MethodMapping.Between c.methods d.methods z.methods

theorem Keeps.refl (v : KeyView) (c : ClassMapping) : c.Keeps v c :=
  ⟨.refl (fun _ => .refl _ _) _, .refl (fun _ => .refl _ _) _⟩

theorem Keeps.trans (h : c.Keeps v d) (h' : d.Keeps v z) : c.Keeps v z :=
  ⟨h.fields.trans (fun _ _ _ => .trans) h'.fields, h.methods.trans (fun _ _ _ => .trans) h'.methods⟩

theorem Between.start (h : c.Keeps v z) : Between v c z z where
  names := .start _ _
  comment := .inr rfl
  fields := .start (fun _ _ _ => ⟨⟨.start _ _, rfl⟩, .inr rfl⟩) h.fields
  methods := .start (fun _ _ => .start) h.methods

theorem Between.eq (h : Between v z d z) : d = z := by
  obtain ⟨names, comment, fields, methods⟩ := d
  have hnames := h.names.eq
  have hcomment := h.comment.elim id id
  have hfields := h.fields.eq (fun _ _ => FieldMapping.Between.eq) rfl
  have hmethods := h.methods.eq (fun _ _ => MethodMapping.Between.eq) rfl
  subst hnames hcomment hfields hmethods
  rfl

theorem annotateField_eq_run {key : String} (hkey : r.key? = some key) (c : ClassMapping) :
    c.annotateField v columns desc r =
      { c with fields := (FieldMapping.act v columns key desc r).run c.fields } := by
  unfold annotateField Act.run FieldMapping.act
  rw [hkey]
  dsimp only
  cases c.fields.findIdx? (·.isFor v.column key desc) with
  | some i => rfl
  | none => cases v.creates <;> simp

theorem annotateMethod_eq_run {key : String} (hkey : r.key? = some key) (c : ClassMapping) :
    c.annotateMethod v columns desc r =
      { c with methods := (MethodMapping.act v columns key desc r).run c.methods } := by
  unfold annotateMethod Act.run MethodMapping.act
  rw [hkey]
  dsimp only
  cases c.methods.findIdx? (·.isFor v.column key desc) with
  | some i => rfl
  | none => cases v.creates <;> simp

theorem annotateParam_eq_run (method : String) (index : UInt16) (r : Record) (c : ClassMapping) :
    c.annotateParam v columns method desc index r =
      { c with
        methods := (MethodMapping.paramAct v columns method desc index r).run c.methods } := by
  unfold annotateParam Act.run MethodMapping.paramAct
  dsimp only
  cases c.methods.findIdx? (·.isFor v.column method desc) with
  | some i => rfl
  | none => cases v.creates <;> simp

theorem base_eq_none_iff {α : Type} {b : α} :
    (if v.creates then some b else none) = none ↔ v.creates = false := by
  cases v.creates <;> simp

end ClassMapping

/-- What a record does to every class: it does nothing, or annotates the class, or acts on its
fields or its methods. -/
inductive Record.Does (v : KeyView) (columns : List Nat) (r : Record) : Prop where
  | nothing (h : ∀ c, r.change v columns c = c)
  | type (h : ∀ c, r.change v columns c = c.annotate columns r)
  | field (key : String) (desc : Option String) (h : ∀ c, r.change v columns c =
      { c with fields := (FieldMapping.act v columns key desc r).run c.fields })
  | method (key : String) (desc : Option String) (h : ∀ c, r.change v columns c =
      { c with methods := (MethodMapping.act v columns key desc r).run c.methods })
  | param (key : String) (desc : Option String) (index : UInt16)
      (h : ∀ c, r.change v columns c =
        { c with methods := (MethodMapping.paramAct v columns key desc index r).run c.methods })
      (hits : ∀ c z, r.fitsLater v c z = true →
        (MethodMapping.paramAct v columns key desc index r).Hits c.methods z.methods)

theorem Record.does (v : KeyView) (columns : List Nat) (r : Record) : r.Does v columns := by
  cases helement : r.element with
  | type =>
    refine .type fun c => ?_
    rw [change, helement]
  | field owner desc =>
    cases hkey : r.key? with
    | none =>
      refine .nothing fun c => ?_
      rw [change, helement]
      dsimp only [ClassMapping.annotateField]
      rw [hkey]
    | some key =>
      refine .field key (desc.map v.sourceDesc) fun c => ?_
      rw [change, helement]
      exact ClassMapping.annotateField_eq_run hkey c
  | method owner desc =>
    cases hkey : r.key? with
    | none =>
      refine .nothing fun c => ?_
      rw [change, helement]
      dsimp only [ClassMapping.annotateMethod]
      rw [hkey]
    | some key =>
      refine .method key (desc.map v.sourceDesc) fun c => ?_
      rw [change, helement]
      exact ClassMapping.annotateMethod_eq_run hkey c
  | param owner method desc index =>
    refine .param method (desc.map v.sourceDesc) index (fun c => ?_) fun c z hfits => ?_
    · rw [change, helement]
      exact ClassMapping.annotateParam_eq_run method index r c
    · intro i hi m hm
      change c.methods.findIdx? (·.isFor v.column method (desc.map v.sourceDesc)) = some i at hi
      rw [fitsLater, helement] at hfits
      dsimp only at hfits
      rw [hi] at hfits
      dsimp only at hfits
      rwa [hm, Option.all_some] at hfits

namespace ClassMapping

variable {v : KeyView} {columns : List Nat} {r : Record} {c d z : ClassMapping}

/-- A record gives a later form of a class. -/
theorem keeps_change (hcolumn : v.column ∉ columns.drop 1) (r : Record) (c : ClassMapping) :
    c.Keeps v (r.change v columns c) := by
  have hrefl := Keeps.refl v c
  cases r.does v columns with
  | nothing h =>
    rw [h]
    exact hrefl
  | type h =>
    rw [h]
    exact ⟨hrefl.fields, hrefl.methods⟩
  | field key desc h =>
    rw [h]
    refine ⟨?_, hrefl.methods⟩
    exact Act.grows_run (fun _ => .refl _ _) (FieldMapping.keeps_annotate hcolumn desc r)
      base_eq_none_iff.2 c.fields
  | method key desc h =>
    rw [h]
    refine ⟨hrefl.fields, ?_⟩
    exact Act.grows_run (.refl _) (MethodMapping.keeps_annotate hcolumn desc r)
      base_eq_none_iff.2 c.methods
  | param key desc index h =>
    rw [h]
    refine ⟨hrefl.fields, ?_⟩
    exact Act.grows_run (.refl _) (MethodMapping.keeps_annotateParam columns index r)
      base_eq_none_iff.2 c.methods

/-- A record that comes again keeps a class on its way. -/
theorem Between.change (hcolumn : v.column ∉ columns.drop 1) (h : Between v c d z)
    (hkeeps : (r.change v columns c).Keeps v z) (hfits : r.fitsLater v c z = true) :
    Between v (r.change v columns c) (r.change v columns d) z := by
  cases r.does v columns with
  | nothing hdoes =>
    rw [hdoes, hdoes]
    exact h
  | type hdoes =>
    rw [hdoes, hdoes]
    exact ⟨h.names.write columns r 1, r.either_commentOver h.comment, h.fields, h.methods⟩
  | field key desc hdoes =>
    rw [hdoes] at hkeeps
    rw [hdoes, hdoes]
    refine ⟨h.names, h.comment, ?_, h.methods⟩
    exact h.fields.run (FieldMapping.respects_act hcolumn) base_eq_none_iff.1 hkeeps.fields
      (Act.hits_of_change (fun _ _ => FieldMapping.fits_of_keeps hcolumn) hkeeps.fields)
  | method key desc hdoes =>
    rw [hdoes] at hkeeps
    rw [hdoes, hdoes]
    refine ⟨h.names, h.comment, h.fields, ?_⟩
    exact h.methods.run (MethodMapping.respects_act hcolumn) base_eq_none_iff.1 hkeeps.methods
      (Act.hits_of_change (fun _ _ => MethodMapping.fits_of_keeps hcolumn) hkeeps.methods)
  | param key desc index hdoes hhits =>
    rw [hdoes] at hkeeps
    rw [hdoes, hdoes]
    refine ⟨h.names, h.comment, h.fields, ?_⟩
    exact h.methods.run MethodMapping.respects_paramAct base_eq_none_iff.1 hkeeps.methods
      (hhits c z hfits)

end ClassMapping

/-- All methods of a class have descriptors. -/
def ClassMapping.MethodsDescribed (c : ClassMapping) : Prop := ∀ m ∈ c.methods, m.desc.isSome

/-- Where all methods have descriptors, a parameter stays with its method. -/
theorem ClassMapping.Keeps.fitsLater_of_described {v : KeyView} {r : Record} {c z : ClassMapping}
    (h : c.Keeps v z) (hdesc : c.MethodsDescribed) : r.fitsLater v c z = true := by
  unfold Record.fitsLater
  cases r.element with
  | type | field | method => rfl
  | param owner method desc index =>
    dsimp only
    cases hi : c.methods.findIdx? (·.isFor v.column method (desc.map v.sourceDesc)) with
    | none => rfl
    | some i =>
      obtain ⟨hlt, hfits, -⟩ := List.findIdx?_eq_some_iff_getElem.1 hi
      dsimp only
      cases hz : z.methods[i]? with
      | none => rfl
      | some m =>
        have hkeeps := h.methods.keeps_of_getElem? (List.getElem?_eq_getElem hlt) hz
        have hname : m.names.get? v.column = c.methods[i].names.get? v.column := hkeeps.member.name
        have hsame : m.desc = c.methods[i].desc :=
          hkeeps.member.desc (hdesc _ (List.getElem_mem hlt))
        rw [MethodMapping.isFor] at hfits
        rwa [Option.all_some, MethodMapping.isFor, hname, hsame]

/-- A record that gives the descriptor of the method it speaks of leaves no method without one. -/
theorem Record.Changes.methodsDescribed {v : KeyView} {columns : List Nat} {r : Record}
    {c c' : ClassMapping} (hchange : r.Changes v columns c c')
    (hr : ∀ key, r.mentions? .method = some key → key.desc.isSome) (h : c.MethodsDescribed) :
    c'.MethodsDescribed := by
  cases hchange with
  | skipped | type | field | newField => exact h
  | method element keyed found =>
    refine forall_mem_modify (fun m hm => ?_) h _
    obtain ⟨d, hd⟩ := Option.isSome_iff_exists.1 hm
    simp only [MethodMapping.annotate, hd]
    rfl
  | @newMethod owner key desc element keyed =>
    have hdesc : desc.isSome :=
      hr ⟨owner, key, desc⟩ (by simp [mentions?, memberKey?, element, keyed])
    refine forall_mem_append_singleton h ?_
    obtain ⟨d, rfl⟩ := Option.isSome_iff_exists.1 hdesc
    rfl
  | @param _ _ _ index =>
    have hkept : ∀ m : MethodMapping, m.desc.isSome →
        (m.annotateParam columns index r).desc.isSome := fun _ hm => hm
    exact forall_mem_modify hkept h _
  | @newParam owner method desc index element =>
    have hdesc : desc.isSome := hr ⟨owner, method, desc⟩ (by simp [mentions?, element])
    refine forall_mem_append_singleton h ?_
    obtain ⟨d, rfl⟩ := Option.isSome_iff_exists.1 hdesc
    rfl

namespace OrderedMap

variable {κ ν : Type} [DecidableEq κ] {m m' : OrderedMap κ ν}

/-- Tables with the same keys in the same order, and the same value under each, are one. -/
theorem ext_get? (hkeys : m.keys = m'.keys) (h : ∀ k, m.get? k = m'.get? k) : m = m' := by
  have hvalues : m.values = m'.values := by
    rw [values_eq_filterMap_keys, values_eq_filterMap_keys, hkeys]
    exact List.filterMap_congr fun k _ => h k
  have hzip : ∀ m : OrderedMap κ ν, m.keys.zip m.values = m.entries := by
    intro m
    rw [keys, values, List.zip_map']
    exact List.map_id _
  have hentries : m.entries = m'.entries := by rw [← hzip m, ← hzip m', hkeys, hvalues]
  cases m
  cases m'
  congr 1

end OrderedMap

namespace MappingTree

variable {v : KeyView} {columns : List Nat} {r : Record} {records : List Record}
  {before now last : OrderedMap String ClassMapping} {name : String}

/-- Classes on their way from one form of a tree to a later one. Classes that the earlier form has
not got yet are already as they are in the end, and in their places. -/
structure Between (v : KeyView) (before now last : OrderedMap String ClassMapping) : Prop where
  keys : now.keys = last.keys
  classes : ∀ name c, before.get? name = some c →
    ∃ d z, now.get? name = some d ∧ last.get? name = some z ∧ c.Keeps v z ∧ c.Between v d z
  others : ∀ name, before.get? name = none → now.get? name = last.get? name

theorem Between.eq (h : Between v last now last) : now = last := by
  refine OrderedMap.ext_get? h.keys fun name => ?_
  cases hlast : last.get? name with
  | none => rw [h.others name hlast, hlast]
  | some c =>
    obtain ⟨d, z, hd, hz, -, hbetween⟩ := h.classes name c hlast
    cases hlast.symm.trans hz
    rw [hd, hbetween.eq]

/-- Every class that a record speaks of is there, or the record adds it. -/
def FindsOwner (v : KeyView) (r : Record) (classes : OrderedMap String ClassMapping) : Prop :=
  ∀ name, r.owner? v = some name → (classes.get? name).isSome ∨ r.addsOwner v = true

theorem FindsOwner.exists_ownerIn (h : FindsOwner v r before) (hname : r.owner? v = some name) :
    ∃ c, ownerIn v before r name = some c := by
  refine Option.isSome_iff_exists.1 ?_
  rw [ownerIn, Option.isSome_or, Bool.or_eq_true]
  refine (h name hname).imp id fun hadds => ?_
  rw [if_pos hadds]
  rfl

/-- A class that a record finds or adds is on its way, and the record keeps it there. -/
theorem Between.change_owner (hcolumn : v.column ∉ columns.drop 1) (h : Between v before now last)
    {c z : ClassMapping} (hc : ownerIn v before r name = some c) (hz : last.get? name = some z)
    (hkeeps : (r.change v columns c).Keeps v z)
    (hfits : before.get? name = some c → r.fitsLater v c z = true) :
    ∃ d, now.get? name = some d ∧
      (r.change v columns c).Between v (r.change v columns d) z := by
  cases hbefore : before.get? name with
  | some c₀ =>
    rw [ownerIn, hbefore, Option.some_or] at hc
    cases hc
    obtain ⟨d, z', hd, hz', -, hbetween⟩ := h.classes name c hbefore
    cases hz.symm.trans hz'
    exact ⟨d, hd, hbetween.change hcolumn hkeeps (hfits hbefore)⟩
  | none =>
    rw [ownerIn, hbefore, Option.none_or] at hc
    obtain ⟨-, hc⟩ := Option.ite_none_right_eq_some.1 hc
    cases hc
    have hstart := ClassMapping.Between.start
      ((ClassMapping.keeps_change hcolumn r (.ofSource name)).trans hkeeps)
    exact ⟨z, (h.others name hbefore).trans hz,
      hstart.change hcolumn hkeeps (r.fitsLater_ofSource v name z)⟩

/-- A record that comes again keeps the classes on their way. -/
theorem Between.apply (hcolumn : v.column ∉ columns.drop 1) (h : Between v before now last)
    (hfinds : FindsOwner v r before)
    (hlater : ∀ name c, (apply v columns before r).get? name = some c →
      ∃ z, last.get? name = some z ∧ c.Keeps v z)
    (hfits : ∀ name c z, r.owner? v = some name → before.get? name = some c →
      last.get? name = some z → r.fitsLater v c z = true) :
    Between v (apply v columns before r) (apply v columns now r) last := by
  have hchanged : ∀ name c, r.owner? v = some name → ownerIn v before r name = some c →
      ∃ d z, now.get? name = some d ∧ last.get? name = some z ∧
        (r.change v columns c).Keeps v z ∧
        (r.change v columns c).Between v (r.change v columns d) z := by
    intro name c hname hc
    have hafter : (MappingTree.apply v columns before r).get? name =
        some (r.change v columns c) := by
      rw [get?_apply, if_pos hname, hc]
      rfl
    obtain ⟨z, hz, hkeeps⟩ := hlater name _ hafter
    obtain ⟨d, hd, hbetween⟩ :=
      h.change_owner hcolumn hc hz hkeeps fun hbefore => hfits name c z hname hbefore hz
    exact ⟨d, z, hd, hz, hkeeps, hbetween⟩
  constructor
  · rw [← h.keys]
    refine keys_apply fun name hname => ?_
    obtain ⟨c, hc⟩ := hfinds.exists_ownerIn hname
    obtain ⟨d, z, hd, -⟩ := hchanged name c hname hc
    rw [hd]
    rfl
  · intro name c hc
    rw [get?_apply] at hc
    split at hc
    · next hname =>
      obtain ⟨c₀, hc₀, rfl⟩ := Option.map_eq_some_iff.1 hc
      obtain ⟨d, z, hd, hz, hkeeps, hbetween⟩ := hchanged name c₀ hname hc₀
      refine ⟨_, z, ?_, hz, hkeeps, hbetween⟩
      rw [get?_apply, if_pos hname, ownerIn, hd]
      rfl
    · next hname =>
      rw [get?_apply, if_neg hname]
      exact h.classes name c hc
  · intro name hnone
    rw [get?_apply] at hnone
    split at hnone
    · next hname =>
      obtain ⟨c, hc⟩ := hfinds.exists_ownerIn hname
      rw [hc] at hnone
      cases hnone
    · next hname =>
      rw [get?_apply, if_neg hname]
      exact h.others name hnone

/-- Whether every parameter of some records is put at a method that still fits the record in the
last form of the classes. -/
def paramsStay (v : KeyView) (columns : List Nat) (last : OrderedMap String ClassMapping) :
    OrderedMap String ClassMapping → List Record → Bool
  | _, [] => true
  | classes, r :: rest =>
      (match (r.owner? v).bind classes.get?, (r.owner? v).bind last.get? with
        | some c, some z => r.fitsLater v c z
        | _, _ => true) && paramsStay v columns last (apply v columns classes r) rest

/-- A record finds its class behind others as well. -/
theorem FindsOwner.apply {r' : Record} (h : FindsOwner v r before) :
    FindsOwner v r (MappingTree.apply v columns before r') :=
  fun name hname => (h name hname).imp (fun hsome => isSome_get?_apply hsome r') id

/-- Records that come again end where they ended before. -/
theorem Between.foldl_apply (hcolumn : v.column ∉ columns.drop 1)
    (hlast : records.foldl (MappingTree.apply v columns) before = last)
    (h : Between v before now last) (hfinds : ∀ r ∈ records, FindsOwner v r before)
    (hstay : paramsStay v columns last before records = true) :
    records.foldl (MappingTree.apply v columns) now = last := by
  induction records generalizing before now with
  | nil =>
    cases hlast
    exact h.eq
  | cons r records ih =>
    rw [List.forall_mem_cons] at hfinds
    rw [paramsStay, Bool.and_eq_true] at hstay
    have hlater : ∀ name c, (MappingTree.apply v columns before r).get? name = some c →
        ∃ z, last.get? name = some z ∧ c.Keeps v z := by
      intro name c hc
      rw [← hlast, List.foldl_cons]
      exact foldl_apply_kept (.refl v) (fun _ _ _ => .trans)
        (fun r _ c => ClassMapping.keeps_change hcolumn r c) hc
    refine ih hlast (h.apply hcolumn hfinds.1 hlater ?_) (fun r' hr' => (hfinds.2 r' hr').apply)
      hstay.2
    intro name c z hname hc hz
    have hfits := hstay.1
    rwa [hname, Option.bind_some, Option.bind_some, hc, hz] at hfits

/-- Records that are applied a second time change nothing. -/
theorem foldl_apply_again (hcolumn : v.column ∉ columns.drop 1)
    {classes : OrderedMap String ClassMapping} (hfinds : ∀ r ∈ records, FindsOwner v r classes)
    (hlast : records.foldl (MappingTree.apply v columns) classes = last)
    (hstay : paramsStay v columns last classes records = true) :
    records.foldl (MappingTree.apply v columns) last = last := by
  refine Between.foldl_apply hcolumn hlast ⟨rfl, fun name c hc => ?_, fun _ _ => rfl⟩ hfinds hstay
  obtain ⟨z, hz, hkeeps⟩ := foldl_apply_kept (.refl v) (fun _ _ _ => .trans)
    (fun r (_ : r ∈ records) c => ClassMapping.keeps_change hcolumn r c) hc
  rw [hlast] at hz
  exact ⟨z, z, hz, hz, hkeeps, .start hkeeps⟩

/-- If all methods have descriptors from the start, every parameter stays with its method. -/
theorem paramsStay_of_described (hcolumn : v.column ∉ columns.drop 1)
    (hlast : records.foldl (MappingTree.apply v columns) before = last)
    (hclasses : ∀ name c, before.get? name = some c → c.MethodsDescribed)
    (hrecords : ∀ r ∈ records, ∀ key, r.mentions? .method = some key → key.desc.isSome) :
    paramsStay v columns last before records = true := by
  induction records generalizing before with
  | nil => rfl
  | cons r records ih =>
    rw [List.forall_mem_cons] at hrecords
    rw [paramsStay, Bool.and_eq_true]
    constructor
    · split
      · next c z hc hz =>
        obtain ⟨name, hname, hc⟩ := Option.bind_eq_some_iff.1 hc
        rw [hname, Option.bind_some, ← hlast] at hz
        obtain ⟨z', hz', hkeeps⟩ := foldl_apply_kept (.refl v) (fun _ _ _ => .trans)
          (fun r (_ : r ∈ _ :: records) c => ClassMapping.keeps_change hcolumn r c) hc
        cases hz.symm.trans hz'
        exact hkeeps.fitsLater_of_described (hclasses name c hc)
      · rfl
    · have hnext : ∀ name c, ([r].foldl (MappingTree.apply v columns) before).get? name = some c →
          c.MethodsDescribed := by
        refine foldl_apply_invariant (fun _ => List.forall_mem_nil _) ?_ hclasses
        intro r' hr' _ c hc
        rw [List.mem_singleton.1 hr']
        exact (r.changes_change v columns c).methodsDescribed hrecords.1 hc
      exact ih hlast hnext hrecords.2

end MappingTree

end JarRemap
