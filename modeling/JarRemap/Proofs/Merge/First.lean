import JarRemap.Proofs.Merge.Unique

/-!
# The first source of a tree

The first source is keyed by the source namespace, so each of its records finds what it speaks of or
adds it. For the members of a class this is one operation, whatever a record names: the first member
of a name and a fitting descriptor is changed, or a new one comes last.
-/

namespace JarRemap

/-- How the first source speaks of the elements of a tree. -/
def KeyView.first : KeyView := ⟨0, {}⟩

namespace Names

/-- The names of a record go to the columns from a position on, if these are the first columns. -/
theorem get?_write_range (names : Names) (r : Record) (width start column : Nat) :
    (names.write (List.range width) r start).get? column =
      if start ≤ column ∧ column < width then (r.name? column).or (names.get? column)
      else names.get? column := by
  have hentry : ∀ i, (List.range width)[i]? = some column ↔ i < width ∧ i = column := by
    intro i
    rw [List.getElem?_eq_some_iff]
    simp only [List.length_range, List.getElem_range, exists_prop]
  split
  · next hin =>
    exact get?_write_of_getElem? List.nodup_range ((hentry column).2 ⟨hin.2, rfl⟩) hin.1 names r
  · next hout =>
    refine get?_write_of_not_mem (fun hmem => hout ?_) names r
    obtain ⟨i, hi⟩ := List.mem_iff_getElem?.1 hmem
    rw [List.getElem?_drop, hentry] at hi
    omega

end Names

namespace MemberMapping

/-- Whether a record of the first source, of a key and descriptor, speaks of a member. -/
def isFor (m : MemberMapping) (key : String) (desc : Option String) : Bool :=
  m.names.get? 0 == some key && descriptorsFit m.desc desc

/-- A member with what a record says of it. -/
def annotate (columns : List Nat) (desc : Option String) (r : Record) (m : MemberMapping) :
    MemberMapping where
  names := m.names.write columns r 1
  desc := m.desc <|> desc

/-- Change the first member of a key and descriptor, or a new one that comes last. -/
def upsert (key : String) (desc : Option String) (change : MemberMapping → MemberMapping)
    (members : List MemberMapping) : List MemberMapping :=
  match members.findIdx? (·.isFor key desc) with
  | some i => members.modify i change
  | none => members ++ [change ⟨.ofSource key, desc⟩]

end MemberMapping

namespace Record

/-- The member that a record of the first source speaks of; a parameter speaks of its method. -/
def mentions? (kind : MemberKind) (r : Record) : Option MemberKey :=
  match kind, r.element with
  | .method, .param owner method desc _ => some ⟨owner, method, desc⟩
  | _, _ => r.memberKey? kind

/-- What a record makes of the member it speaks of. A parameter changes no name of its method. -/
def changeMember (columns : List Nat) (desc : Option String) (r : Record) :
    MemberMapping → MemberMapping :=
  if r.element.isParam then id else MemberMapping.annotate columns desc r

end Record

/-- A view of elements goes along with a change of one of them. -/
theorem map_modify {α β : Type} {g : α → β} {f : α → α} {f' : β → β} (h : ∀ a, g (f a) = f' (g a))
    (l : List α) (i : Nat) : (l.modify i f).map g = (l.map g).modify i f' := by
  refine List.ext_getElem? fun j => ?_
  rw [List.getElem?_map, List.getElem?_modify, List.getElem?_modify, List.getElem?_map]
  cases l[j]? with
  | none => rfl
  | some a =>
    by_cases hj : i = j
    · simp [hj, h]
    · simp [hj]

section First

variable {columns : List Nat} {r : Record} {c : ClassMapping} {desc : Option String}

/-- Seen as members, finding or adding an element is finding or adding a member. -/
theorem ClassMapping.members_upsert {α : Type} {member : α → MemberMapping} {l : List α}
    {p : α → Bool} {f : α → α} {new : α} {key : String} {change : MemberMapping → MemberMapping}
    (hp : ∀ a, p a = (member a).isFor key desc) (hf : ∀ a, member (f a) = change (member a))
    (hnew : member new = change ⟨.ofSource key, desc⟩) :
    (match l.findIdx? p with
      | some i => l.modify i f
      | none => l ++ [new]).map member = MemberMapping.upsert key desc change (l.map member) := by
  have hsame : p = (fun m => m.isFor key desc) ∘ member := funext hp
  rw [MemberMapping.upsert, List.findIdx?_map, ← hsame]
  cases l.findIdx? p with
  | none => simp only [List.map_append, List.map_singleton, hnew]
  | some i => exact map_modify hf l i

theorem orElse_self {α : Type} (a : Option α) : (none <|> a) = (a <|> a) := by
  cases a <;> rfl

theorem ClassMapping.members_annotateField {key : String} (hkey : r.key? = some key) :
    (c.annotateField .first columns desc r).members .field =
      MemberMapping.upsert key desc (MemberMapping.annotate columns desc r) (c.members .field) := by
  have hfields : (c.annotateField .first columns desc r).fields =
      match c.fields.findIdx? (·.isFor 0 key desc) with
      | some i => c.fields.modify i (·.annotate columns desc r)
      | none => c.fields ++ [FieldMapping.annotate columns desc r { names := .ofSource key }] := by
    rw [annotateField, hkey]
    dsimp only [KeyView.first]
    cases c.fields.findIdx? (·.isFor 0 key desc) <;> rfl
  rw [members, hfields]
  refine members_upsert (fun _ => rfl) (fun _ => rfl) ?_
  simp only [FieldMapping.member, FieldMapping.annotate, MemberMapping.annotate, orElse_self]

theorem ClassMapping.members_annotateMethod {key : String} (hkey : r.key? = some key) :
    (c.annotateMethod .first columns desc r).members .method =
      MemberMapping.upsert key desc (MemberMapping.annotate columns desc r)
        (c.members .method) := by
  have hmethods : (c.annotateMethod .first columns desc r).methods =
      match c.methods.findIdx? (·.isFor 0 key desc) with
      | some i => c.methods.modify i (·.annotate columns desc r)
      | none =>
          c.methods ++ [MethodMapping.annotate columns desc r { names := .ofSource key }] := by
    rw [annotateMethod, hkey]
    dsimp only [KeyView.first]
    cases c.methods.findIdx? (·.isFor 0 key desc) <;> rfl
  rw [members, hmethods]
  refine members_upsert (fun _ => rfl) (fun _ => rfl) ?_
  simp only [MethodMapping.member, MethodMapping.annotate, MemberMapping.annotate, orElse_self]

theorem ClassMapping.members_annotateParam_first (method : String) (index : UInt16) :
    (c.annotateParam .first columns method desc index r).members .method =
      MemberMapping.upsert method desc id (c.members .method) := by
  have hmethods : (c.annotateParam .first columns method desc index r).methods =
      match c.methods.findIdx? (·.isFor 0 method desc) with
      | some i => c.methods.modify i (·.annotateParam columns index r)
      | none => c.methods ++
          [MethodMapping.annotateParam columns index r { names := .ofSource method, desc }] := by
    rw [annotateParam]
    dsimp only [KeyView.first]
    cases c.methods.findIdx? (·.isFor 0 method desc) <;> rfl
  rw [members, hmethods]
  exact members_upsert (fun _ => rfl) (fun _ => rfl) rfl

/-- What a record of the first source makes of the members of a class. -/
theorem Record.members_change_first (columns : List Nat) (r : Record) (c : ClassMapping)
    (kind : MemberKind) :
    (r.change .first columns c).members kind =
      match r.mentions? kind with
      | none => c.members kind
      | some key =>
          MemberMapping.upsert key.name key.desc (r.changeMember columns key.desc)
            (c.members kind) := by
  have hdesc : ∀ desc : Option String, desc.map KeyView.first.sourceDesc = desc := by
    intro desc
    cases desc <;> rfl
  unfold change mentions? changeMember
  cases helement : r.element with
  | type => cases kind <;> simp [memberKey?, helement] <;> rfl
  | field owner desc =>
    simp only [hdesc]
    cases kind with
    | field =>
      cases hkey : r.key? with
      | none => simp [memberKey?, helement, hkey, ClassMapping.annotateField]
      | some key =>
        simp only [memberKey?, helement, hkey, Option.map_some]
        exact ClassMapping.members_annotateField hkey
    | method =>
      simp only [memberKey?, helement]
      exact (ClassMapping.annotateField_frame r).2
  | method owner desc =>
    simp only [hdesc]
    cases kind with
    | field =>
      simp only [memberKey?, helement]
      exact (ClassMapping.annotateMethod_frame r).2
    | method =>
      cases hkey : r.key? with
      | none => simp [memberKey?, helement, hkey, ClassMapping.annotateMethod]
      | some key =>
        simp only [memberKey?, helement, hkey, Option.map_some]
        exact ClassMapping.members_annotateMethod hkey
  | param owner method desc index =>
    simp only [hdesc]
    cases kind with
    | field =>
      simp only [memberKey?, helement]
      unfold ClassMapping.annotateParam
      split
      · rfl
      · split <;> rfl
    | method => exact ClassMapping.members_annotateParam_first method index

theorem Record.mentions?_of_memberKey? {kind : MemberKind} {key : MemberKey}
    (h : r.memberKey? kind = some key) :
    r.mentions? kind = some key ∧ r.element.isParam = false := by
  unfold memberKey? at h
  unfold mentions?
  cases helement : r.element with
  | type => cases kind <;> simp [helement] at h
  | field => cases kind <;> simp_all [memberKey?, Element.isParam]
  | method => cases kind <;> simp_all [memberKey?, Element.isParam]
  | param => cases kind <;> simp [helement] at h

end First

/-- A later form of a class has a name wherever there was one, and a later form of every member. -/
structure ClassMapping.Becomes (c c' : ClassMapping) : Prop where
  named : ∀ column, (c.names.get? column).isSome → (c'.names.get? column).isSome
  members : ∀ kind, ∀ m ∈ c.members kind, ∃ m' ∈ c'.members kind, m.Becomes m'

namespace ClassMapping.Becomes

variable {a b c : ClassMapping}

theorem refl (c : ClassMapping) : Becomes c c :=
  ⟨fun _ h => h, fun _ m hm => ⟨m, hm, .refl m⟩⟩

theorem trans (hab : Becomes a b) (hbc : Becomes b c) : Becomes a c := by
  refine ⟨fun column h => hbc.named column (hab.named column h), fun kind x hx => ?_⟩
  obtain ⟨y, hy, hxy⟩ := hab.members kind x hx
  obtain ⟨z, hz, hyz⟩ := hbc.members kind y hy
  refine ⟨z, hz, hyz.name.trans hxy.name, fun hdesc => ?_,
    fun column h => hyz.named column (hxy.named column h)⟩
  have hsame := hxy.desc hdesc
  exact (hyz.desc (hsame ▸ hdesc)).trans hsame

end ClassMapping.Becomes

namespace MemberMapping

variable {width : Nat} {key : String} {desc : Option String} {r : Record}

theorem becomes_annotate (width : Nat) (desc : Option String) (r : Record) (m : MemberMapping) :
    m.Becomes (m.annotate (List.range width) desc r) where
  name := (Names.get?_write_range ..).trans (if_neg (by omega))
  desc hdesc := by
    obtain ⟨d, hd⟩ := Option.isSome_iff_exists.1 hdesc
    rw [annotate, hd]
    rfl
  named _ := Names.isSome_get?_write

theorem becomes_changeMember (width : Nat) (desc : Option String) (r : Record)
    (m : MemberMapping) : m.Becomes (r.changeMember (List.range width) desc m) := by
  unfold Record.changeMember
  split
  · exact .refl m
  · exact becomes_annotate width desc r m

theorem isFor_ofSource (key : String) (desc : Option String) :
    isFor ⟨.ofSource key, desc⟩ key desc = true := by
  cases desc <;> simp [isFor, Names.get?, Names.ofSource, descriptorsFit]

/-- Some member that a record speaks of is changed. -/
theorem exists_mem_upsert (key : String) (desc : Option String)
    (change : MemberMapping → MemberMapping) (members : List MemberMapping) :
    ∃ m, m.isFor key desc = true ∧ change m ∈ upsert key desc change members := by
  unfold upsert
  cases hi : members.findIdx? (·.isFor key desc) with
  | none => exact ⟨_, isFor_ofSource key desc, List.mem_append_right _ (List.mem_singleton_self _)⟩
  | some i =>
    obtain ⟨hlt, hfor, -⟩ := List.findIdx?_eq_some_iff_getElem.1 hi
    refine ⟨members[i], hfor, List.mem_of_getElem? (i := i) ?_⟩
    rw [List.getElem?_modify, List.getElem?_eq_getElem hlt]
    simp

/-- No member is lost. -/
theorem upsert_becomes {change : MemberMapping → MemberMapping}
    (hchange : ∀ m, Becomes m (change m)) {members : List MemberMapping} :
    ∀ m ∈ members, ∃ m' ∈ upsert key desc change members, m.Becomes m' := by
  intro m hm
  unfold upsert
  cases members.findIdx? (·.isFor key desc) with
  | none => exact ⟨m, List.mem_append_left _ hm, .refl m⟩
  | some i =>
    obtain ⟨j, hj⟩ := List.mem_iff_getElem?.1 hm
    by_cases hij : i = j
    · refine ⟨change m, List.mem_of_getElem? (i := j) ?_, hchange m⟩
      simp [hj, hij]
    · refine ⟨m, List.mem_of_getElem? (i := j) ?_, .refl m⟩
      simp [hj, hij]

/-- A member with what a record says of it has the name and the descriptor of the record, and a name
wherever the record has one. -/
theorem annotate_of_isFor (width : Nat) (r : Record) {m : MemberMapping}
    (h : m.isFor key desc = true) :
    (m.annotate (List.range width) desc r).names.get? 0 = some key ∧
      (desc.isSome → (m.annotate (List.range width) desc r).desc = desc) ∧
      ∀ column, column < width → (r.name? column).isSome →
        ((m.annotate (List.range width) desc r).names.get? column).isSome := by
  rw [isFor, Bool.and_eq_true, beq_iff_eq] at h
  have hname : (m.annotate (List.range width) desc r).names.get? 0 = some key :=
    (becomes_annotate width desc r m).name.trans h.1
  refine ⟨hname, fun hdesc => ?_, fun column hlt hsome => ?_⟩
  · obtain ⟨d, rfl⟩ := Option.isSome_iff_exists.1 hdesc
    cases hold : m.desc with
    | none =>
      rw [annotate, hold]
      rfl
    | some e =>
      have hfit := h.2
      rw [hold] at hfit
      rw [annotate, hold, beq_iff_eq.1 hfit]
      rfl
  · cases column with
    | zero =>
      rw [hname]
      rfl
    | succ column =>
      rw [annotate, Names.get?_write_range, if_pos ⟨Nat.le_add_left 1 column, hlt⟩,
        Option.isSome_or, hsome, Bool.true_or]

end MemberMapping

theorem Record.becomes_change_first (width : Nat) (r : Record) (c : ClassMapping) :
    c.Becomes (r.change .first (List.range width) c) := by
  constructor
  · intro column h
    rw [names_change]
    split
    · exact Names.isSome_get?_write h
    · exact h
  · intro kind m hm
    rw [members_change_first]
    split
    · exact ⟨m, hm, .refl m⟩
    · exact MemberMapping.upsert_becomes (MemberMapping.becomes_changeMember width _ r) m hm

namespace MappingTree

variable {columns : List Nat} {classes : OrderedMap String ClassMapping} {width : Nat}

/-- A record of the first source changes the class it speaks of, which is added if it is not
there. -/
theorem apply_first {r : Record} {name : String} (h : r.owner? .first = some name) :
    apply .first columns classes r =
      (classes.insertNew name (.ofSource name)).modify name (r.change .first columns) := by
  have hadds : r.addsOwner .first = true := by
    unfold Record.addsOwner
    cases r.element <;> rfl
  rw [apply_eq, h]
  dsimp only
  rw [hadds, if_pos rfl]

/-- What a record makes true of its class, and no later record takes away, is true of the class
behind all records. -/
theorem exists_get?_foldl_first (width : Nat) (classes : OrderedMap String ClassMapping)
    {P : ClassMapping → Prop} (hkept : ∀ c c', P c → c.Becomes c' → P c')
    {records : List Record} {r : Record} (hr : r ∈ records) {name : String} (howner : r.owner? .first = some name)
    (hchange : ∀ c, P (r.change .first (List.range width) c)) :
    ∃ c, (records.foldl (apply .first (List.range width)) classes).get? name = some c ∧ P c := by
  induction records generalizing classes with
  | nil => cases hr
  | cons r₀ records ih =>
    rcases List.mem_cons.1 hr with rfl | hr
    · have hhead : (apply .first (List.range width) classes r).get? name =
          (ownerIn .first classes r name).map (r.change .first (List.range width)) := by
        rw [get?_apply, if_pos howner]
      have hadds : r.addsOwner .first = true := by
        unfold Record.addsOwner
        cases r.element <;> rfl
      rw [ownerIn, hadds, if_pos rfl, Option.or_some, Option.map_some] at hhead
      obtain ⟨c, hc, hbecomes⟩ := foldl_apply_kept (R := ClassMapping.Becomes) .refl
        (fun _ _ _ => .trans) (fun r' (_ : r' ∈ records) c => r'.becomes_change_first width c) hhead
      exact ⟨c, hc, hkept _ c (hchange _) hbecomes⟩
    · exact ih _ hr

/-- The names of a source without repeated namespaces go to the first columns of an empty tree. -/
theorem merge_empty {s : Source} (h : s.namespaces.Nodup) :
    ({} : MappingTree).merge s = .ok {
      namespaces := s.namespaces
      classes := s.records.foldl (apply .first (List.range s.width)) {} } := by
  have hknown : ({} : MappingTree).known s = [s.key] := rfl
  have hwith : ({} : MappingTree).namespacesWith s = s.namespaces := by
    have hkey : addAllNew [s.key] s.namespaces = addAllNew [s.key] s.destinations := by
      change addAllNew (addNew [s.key] s.key) s.destinations = _
      rw [addNew, if_pos (List.mem_singleton_self _)]
    rw [namespacesWith, hknown, hkey, addAllNew_eq_append h]
    rfl
  have hcolumns : ({} : MappingTree).columnsOf s = List.range s.width := by
    rw [columnsOf, hwith]
    refine List.ext_getElem ?_ fun i hi hi' => ?_
    · rw [List.length_map, List.length_range]
      rfl
    · rw [List.getElem_map, h.idxOf_getElem, List.getElem_range]
  have hcolumn : (({} : MappingTree).known s).idxOf? s.key = some 0 := by
    rw [hknown, List.idxOf?_cons, if_pos (beq_self_eq_true _)]
  rw [merge, hcolumn, hwith, hcolumns]
  rfl

end MappingTree

end JarRemap
