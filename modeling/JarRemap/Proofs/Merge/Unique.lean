import JarRemap.Proofs.Builder.Bounds
import JarRemap.Proofs.Merge.Members

/-!
# Members that can be told apart

A record finds its member by the first that fits, and a missing descriptor fits any. So a member
without a descriptor must be the only one of its name, and that is what makes it safe to give it a
descriptor later.
-/

namespace JarRemap

/-- What holds between elements, and between each of them and any changed one, holds after one of
them is changed. -/
theorem pairwise_modify {α : Type} {R : α → α → Prop} {f : α → α}
    (hleft : ∀ a b, R a b → R (f a) b) (hright : ∀ a b, R a b → R a (f b)) {l : List α}
    (h : l.Pairwise R) (i : Nat) : (l.modify i f).Pairwise R := by
  induction l generalizing i with
  | nil =>
    rw [List.modify_nil]
    exact List.Pairwise.nil
  | cons a l ih =>
    rw [List.pairwise_cons] at h
    cases i with
    | zero =>
      rw [List.modify_zero_cons, List.pairwise_cons]
      exact ⟨fun b hb => hleft a b (h.1 b hb), h.2⟩
    | succ i =>
      rw [List.modify_succ_cons, List.pairwise_cons]
      exact ⟨forall_mem_modify (hright a) h.1 i, ih h.2 i⟩

theorem pairwise_append_singleton {α : Type} {R : α → α → Prop} {l : List α} {a : α}
    (h : l.Pairwise R) (hnew : ∀ b ∈ l, R b a) : (l ++ [a]).Pairwise R := by
  rw [List.pairwise_append]
  refine ⟨h, List.pairwise_singleton R a, ?_⟩
  intro b hb x hx
  rw [List.mem_singleton.1 hx]
  exact hnew b hb

/-- A name that is there may be written over, but is not taken away. -/
theorem Names.isSome_get?_write {names : Names} {columns : List Nat} {r : Record}
    {start column : Nat} (h : (names.get? column).isSome) :
    ((names.write columns r start).get? column).isSome := by
  rw [get?_write, Option.isSome_or, h, Bool.or_true]

namespace MemberMapping

/-- Two members that a name and a descriptor may not tell apart: they share the source name, and
their descriptors are equal or one is missing. -/
def Clashes (a b : MemberMapping) : Prop :=
  a.names.get? 0 = b.names.get? 0 ∧ descriptorsFit a.desc b.desc = true

/-- A later form of a member has the same source name, the descriptor if there was one, and a name
wherever there was one. -/
structure Becomes (a a' : MemberMapping) : Prop where
  name : a'.names.get? 0 = a.names.get? 0
  desc : a.desc.isSome → a'.desc = a.desc
  named : ∀ column, (a.names.get? column).isSome → (a'.names.get? column).isSome

variable {a a' b : MemberMapping}

theorem Becomes.refl (a : MemberMapping) : Becomes a a := ⟨rfl, fun _ => rfl, fun _ h => h⟩

theorem Clashes.symm (h : Clashes a b) : Clashes b a := by
  refine ⟨h.1.symm, ?_⟩
  have hfit := h.2
  unfold descriptorsFit at hfit ⊢
  cases ha : a.desc with
  | none => cases b.desc <;> rfl
  | some x =>
    cases hb : b.desc with
    | none => rfl
    | some y =>
      rw [ha, hb] at hfit
      exact beq_iff_eq.2 (beq_iff_eq.1 hfit).symm

/-- A descriptor that is filled in takes no clash away. -/
theorem Clashes.of_becomes (h : Becomes a a') (hclash : Clashes a' b) : Clashes a b := by
  refine ⟨h.name.symm.trans hclash.1, ?_⟩
  cases hdesc : a.desc with
  | none => rfl
  | some d =>
    have hsame := h.desc (by rw [hdesc]; rfl)
    rw [← hdesc, ← hsame]
    exact hclash.2

/-- Members stay apart when one of them becomes a later form of itself. -/
theorem pairwise_modify_becomes {α : Type} {member : α → MemberMapping} {f : α → α}
    (hf : ∀ a, Becomes (member a) (member (f a))) {l : List α}
    (h : (l.map member).Pairwise fun a b => ¬ Clashes a b) (i : Nat) :
    ((l.modify i f).map member).Pairwise fun a b => ¬ Clashes a b := by
  rw [List.pairwise_map] at h ⊢
  refine pairwise_modify ?_ ?_ h i
  · exact fun a b hapart hclash => hapart (hclash.of_becomes (hf a))
  · exact fun a b hapart hclash => hapart (hclash.symm.of_becomes (hf b)).symm

end MemberMapping

/-- No two parameters of a method share an index. -/
def MethodMapping.Indexed (m : MethodMapping) : Prop := (m.params.map (·.index)).Nodup

namespace ClassMapping

/-- The members of a class are told apart by source name and descriptor, and the parameters of each
method by index. -/
structure Unique (c : ClassMapping) : Prop where
  members : ∀ kind, (c.members kind).Pairwise fun a b => ¬ a.Clashes b
  params : ∀ m ∈ c.methods, m.Indexed

theorem unique_ofSource (name : String) : (ofSource name).Unique where
  members kind := by cases kind <;> exact List.Pairwise.nil
  params := List.forall_mem_nil _

variable {c : ClassMapping}

/-- A class is unique by what it has of each kind. -/
theorem Unique.of_kinds (hfields : (c.fields.map (·.member)).Pairwise fun a b => ¬ a.Clashes b)
    (hmethods : (c.methods.map (·.member)).Pairwise fun a b => ¬ a.Clashes b)
    (hparams : ∀ m ∈ c.methods, m.Indexed) : c.Unique where
  members kind := by
    cases kind with
    | field => exact hfields
    | method => exact hmethods
  params := hparams

end ClassMapping

section Annotate

variable {columns : List Nat} {r : Record}

theorem FieldMapping.becomes_annotate (hzero : 0 ∉ columns.drop 1) (desc : Option String)
    (f : FieldMapping) : f.member.Becomes (f.annotate columns desc r).member where
  name := Names.get?_write_of_not_mem hzero f.names r
  desc hdesc := by
    obtain ⟨d, hd⟩ := Option.isSome_iff_exists.1 hdesc
    change (f.desc <|> desc) = f.desc
    rw [show f.desc = some d from hd]
    rfl
  named _ := Names.isSome_get?_write

theorem MethodMapping.becomes_annotate (hzero : 0 ∉ columns.drop 1) (desc : Option String)
    (m : MethodMapping) : m.member.Becomes (m.annotate columns desc r).member where
  name := Names.get?_write_of_not_mem hzero m.names r
  desc hdesc := by
    obtain ⟨d, hd⟩ := Option.isSome_iff_exists.1 hdesc
    change (m.desc <|> desc) = m.desc
    rw [show m.desc = some d from hd]
    rfl
  named _ := Names.isSome_get?_write

/-- A member that no record of a key and descriptor could speak of is apart from a new one. -/
theorem not_clashes_new {m new : MemberMapping} {key : String} {desc : Option String}
    (hfor : (m.names.get? 0 == some key && descriptorsFit m.desc desc) = false)
    (hname : new.names.get? 0 = some key) (hdesc : new.desc = desc) : ¬ m.Clashes new := by
  rintro ⟨hsame, hfit⟩
  rw [hsame, hname, beq_self_eq_true, Bool.true_and, ← hdesc, hfit] at hfor
  cases hfor

theorem MethodMapping.Indexed.annotateParam {m : MethodMapping} (h : m.Indexed) (index : UInt16) :
    (m.annotateParam columns index r).Indexed := by
  unfold Indexed at h ⊢
  unfold MethodMapping.annotateParam
  dsimp only
  split
  · have hindex : ∀ p : ParamMapping, (p.annotate columns r).index = p.index := fun _ => rfl
    rwa [ClassMapping.map_modify_of_eq hindex]
  · next hnone =>
    rw [List.findIdx?_eq_none_iff] at hnone
    rw [List.map_append, List.map_singleton]
    refine pairwise_append_singleton h ?_
    intro index' hindex' hsame
    obtain ⟨p, hp, rfl⟩ := List.mem_map.1 hindex'
    exact of_decide_eq_false (hnone p hp) hsame

end Annotate

theorem KeyView.column_eq_zero {v : KeyView} (h : v.creates = true) : v.column = 0 :=
  beq_iff_eq.1 h

/-- A record that leaves the source names alone keeps members and parameters apart. -/
theorem Record.Changes.unique {v : KeyView} {columns : List Nat} {r : Record}
    {c c' : ClassMapping} (hzero : 0 ∉ columns.drop 1) (hchange : r.Changes v columns c c')
    (h : c.Unique) : c'.Unique := by
  have hfields := h.members .field
  have hmethods := h.members .method
  have hsource : ∀ key, ((Names.ofSource key).write columns r 1).get? 0 = some key :=
    fun key => Names.get?_write_of_not_mem hzero _ r
  cases hchange with
  | skipped => exact h
  | type => exact .of_kinds hfields hmethods h.params
  | @field _ _ desc =>
    refine .of_kinds ?_ hmethods h.params
    exact MemberMapping.pairwise_modify_becomes
      (FieldMapping.becomes_annotate hzero (desc.map v.sourceDesc)) hfields _
  | newField _ _ creates absent =>
    refine .of_kinds ?_ hmethods h.params
    rw [List.findIdx?_eq_none_iff, v.column_eq_zero creates] at absent
    rw [List.map_append]
    refine pairwise_append_singleton hfields ?_
    intro m hm
    obtain ⟨f, hf, rfl⟩ := List.mem_map.1 hm
    exact not_clashes_new (absent f hf) (hsource _) (Option.none_or ..)
  | @method _ _ desc =>
    refine .of_kinds hfields ?_ ?_
    · exact MemberMapping.pairwise_modify_becomes
        (MethodMapping.becomes_annotate hzero (desc.map v.sourceDesc)) hmethods _
    · exact forall_mem_modify (P := MethodMapping.Indexed)
        (f := MethodMapping.annotate columns (desc.map v.sourceDesc) r) (fun _ hm => hm) h.params _
  | newMethod _ _ creates absent =>
    refine .of_kinds hfields ?_ (forall_mem_append_singleton h.params List.nodup_nil)
    rw [List.findIdx?_eq_none_iff, v.column_eq_zero creates] at absent
    rw [List.map_append]
    refine pairwise_append_singleton hmethods ?_
    intro m hm
    obtain ⟨f, hf, rfl⟩ := List.mem_map.1 hm
    exact not_clashes_new (absent f hf) (hsource _) (Option.none_or ..)
  | @param _ _ _ index =>
    refine .of_kinds hfields ?_ ?_
    · exact MemberMapping.pairwise_modify_becomes
        (f := MethodMapping.annotateParam columns index r) (fun m => .refl m.member) hmethods _
    · exact forall_mem_modify (P := MethodMapping.Indexed)
        (f := MethodMapping.annotateParam columns index r)
        (fun _ hm => hm.annotateParam index) h.params _
  | @newParam _ method desc index _ creates absent =>
    refine .of_kinds hfields ?_ (forall_mem_append_singleton h.params ?_)
    · rw [List.findIdx?_eq_none_iff, v.column_eq_zero creates] at absent
      rw [List.map_append]
      refine pairwise_append_singleton hmethods ?_
      intro m hm
      obtain ⟨f, hf, rfl⟩ := List.mem_map.1 hm
      exact not_clashes_new (absent f hf) rfl rfl
    · have hnew : MethodMapping.Indexed
          { names := .ofSource method, desc := desc.map v.sourceDesc } := List.nodup_nil
      exact hnew.annotateParam index

/-- Every member of a class has a source name. -/
structure ClassMapping.Sourced (c : ClassMapping) : Prop where
  fields : ∀ f ∈ c.fields, (f.names.get? 0).isSome
  methods : ∀ m ∈ c.methods, (m.names.get? 0).isSome

theorem ClassMapping.Sourced.members {c : ClassMapping} (h : c.Sourced) (kind : MemberKind) :
    ∀ m ∈ c.members kind, (m.names.get? 0).isSome := by
  intro m hm
  cases kind with
  | field =>
    obtain ⟨f, hf, rfl⟩ := List.mem_map.1 hm
    exact h.fields f hf
  | method =>
    obtain ⟨f, hf, rfl⟩ := List.mem_map.1 hm
    exact h.methods f hf

/-- A record writes over source names at most, and makes new members from one. -/
theorem Record.Changes.sourced {v : KeyView} {columns : List Nat} {r : Record}
    {c c' : ClassMapping} (hchange : r.Changes v columns c c') (h : c.Sourced) : c'.Sourced := by
  have hnew : ∀ key, (((Names.ofSource key).write columns r 1).get? 0).isSome :=
    fun _ => Names.isSome_get?_write rfl
  cases hchange with
  | skipped => exact h
  | type => exact ⟨h.fields, h.methods⟩
  | field =>
    refine ⟨forall_mem_modify (P := fun f : FieldMapping => (f.names.get? 0).isSome) ?_ h.fields _,
      h.methods⟩
    exact fun f hf => Names.isSome_get?_write hf
  | newField => exact ⟨forall_mem_append_singleton h.fields (hnew _), h.methods⟩
  | method =>
    refine ⟨h.fields,
      forall_mem_modify (P := fun m : MethodMapping => (m.names.get? 0).isSome) ?_ h.methods _⟩
    exact fun m hm => Names.isSome_get?_write hm
  | newMethod => exact ⟨h.fields, forall_mem_append_singleton h.methods (hnew _)⟩
  | @param _ _ _ index =>
    exact ⟨h.fields, forall_mem_modify (f := MethodMapping.annotateParam columns index r)
      (fun m hm => hm) h.methods _⟩
  | newParam => exact ⟨h.fields, forall_mem_append_singleton h.methods rfl⟩

end JarRemap
