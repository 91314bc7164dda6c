import JarRemap.Proofs.Merge.Again
import Mathlib.Data.List.Pairwise

/-!
# Records of one member each

A record that bears the source name and the descriptor of a member finds this member and no other
one, if the members of its class are told apart. That is kept by every such record, as it writes
behind the source column and has no descriptor to add. So the records can be sorted by members: each
member is changed by those that bear its name and descriptor, in their order, and all else stays.
-/

namespace JarRemap

/-- In a list without repeated labels, what bears the label of an element comes from it. -/
theorem filter_flatMap_label {α β σ : Type} [DecidableEq σ] (label : α → σ) {key : β → σ}
    {f : α → List β} {l : List α} (hnodup : (l.map label).Nodup)
    (hkey : ∀ a ∈ l, ∀ b ∈ f a, key b = label a) {a : α} (ha : a ∈ l) :
    (l.flatMap f).filter (fun b => key b = label a) = f a := by
  induction l with
  | nil => cases ha
  | cons c l ih =>
    rw [List.map_cons, List.nodup_cons] at hnodup
    rw [List.flatMap_cons, List.filter_append]
    have hrest : ∀ d ∈ l, ∀ b ∈ f d, key b = label d :=
      fun d hd => hkey d (List.mem_cons_of_mem c hd)
    rcases List.mem_cons.1 ha with rfl | ha
    · have hself : (f a).filter (fun b => key b = label a) = f a :=
        List.filter_eq_self.2 fun b hb => decide_eq_true (hkey a List.mem_cons_self b hb)
      have hnone : (l.flatMap f).filter (fun b => key b = label a) = [] := by
        rw [List.filter_eq_nil_iff]
        intro b hb hsame
        obtain ⟨d, hd, hb⟩ := List.mem_flatMap.1 hb
        rw [decide_eq_true_eq, hrest d hd b hb] at hsame
        exact hnodup.1 (hsame ▸ List.mem_map_of_mem hd)
      rw [hself, hnone, List.append_nil]
    · have hnone : (f c).filter (fun b => key b = label a) = [] := by
        rw [List.filter_eq_nil_iff]
        intro b hb hsame
        rw [decide_eq_true_eq, hkey c List.mem_cons_self b hb] at hsame
        exact hnodup.1 (hsame ▸ List.mem_map_of_mem ha)
      rw [hnone, List.nil_append, ih hnodup.2 hrest ha]

theorem map_filter_eq_flatMap {α β : Type} (p : α → Bool) (f : α → β) (l : List α) :
    (l.filter p).map f = l.flatMap fun a => if p a then [f a] else [] := by
  induction l with
  | nil => rfl
  | cons a l ih =>
    rw [List.filter_cons, List.flatMap_cons]
    split
    · rw [List.map_cons, ih]
      rfl
    · rw [ih]
      rfl

/-- What is written over by every next value is in the end the last one. -/
theorem foldl_overwrite {α β σ : Type} (set : σ → β → σ)
    (hset : ∀ s a b, set (set s a) b = set s b) (value : α → Option β) (l : List α) (s : σ) :
    l.foldl (fun s a => (value a).elim s (set s)) s =
      (l.reverse.findSome? value).elim s (set s) := by
  induction l generalizing s with
  | nil => rfl
  | cons a l ih =>
    rw [List.foldl_cons, ih, List.reverse_cons, List.findSome?_append]
    cases l.reverse.findSome? value with
    | none =>
      rw [Option.none_or, List.findSome?_singleton]
      rfl
    | some b =>
      cases value a with
      | none => rfl
      | some b' => exact hset s b' b

namespace Act

variable {α ρ σ : Type} [DecidableEq σ] {label : α → σ}

/-- An act that fits one element of a list changes it and makes no new one. -/
theorem run_eq_map {a : Act α} {target : σ} {l : List α} (hnodup : (l.map label).Nodup)
    (hthere : target ∈ l.map label)
    (hfits : ∀ x ∈ l, a.fits x = decide (label x = target)) :
    a.run l = l.map fun x => if label x = target then a.change x else x := by
  have hone : l.Pairwise fun x y => ¬ (a.fits x = true ∧ a.fits y = true) := by
    refine (List.pairwise_map.1 hnodup).imp_of_mem fun {x y} hx hy hne hboth => ?_
    rw [hfits x hx, hfits y hy, decide_eq_true_eq, decide_eq_true_eq] at hboth
    exact hne (hboth.1.trans hboth.2.symm)
  obtain ⟨x, hx, rfl⟩ := List.mem_map.1 hthere
  cases hfound : l.findIdx? a.fits with
  | none =>
    have hno := List.findIdx?_eq_none_iff.1 hfound x hx
    rw [hfits x hx, decide_eq_false_iff_not] at hno
    exact absurd rfl hno
  | some i =>
    rw [run, hfound]
    dsimp only
    rw [modify_findIdx?_eq_map _ hone hfound]
    refine List.map_congr_left fun y hy => ?_
    rw [hfits y hy]
    simp only [decide_eq_true_eq]

/-- Acts that keep the labels of a list, and fit one element each by its label, change each element
by the acts that fit it. -/
theorem foldl_run_eq_map (label : α → σ) {target : ρ → σ} {act : ρ → Act α} {acts : List ρ}
    {l : List α} (hnodup : (l.map label).Nodup) (hthere : ∀ r ∈ acts, target r ∈ l.map label)
    (hfits : ∀ r ∈ acts, ∀ x, label x ∈ l.map label →
      (act r).fits x = decide (label x = target r))
    (hkeeps : ∀ r ∈ acts, ∀ x, label x = target r → label ((act r).change x) = label x) :
    acts.foldl (fun l r => (act r).run l) l = l.map fun x =>
      (acts.filter (target · = label x)).foldl (fun x r => (act r).change x) x := by
  induction acts generalizing l with
  | nil => simp
  | cons r acts ih =>
    have hrun := run_eq_map hnodup (hthere r List.mem_cons_self) fun x hx =>
      hfits r List.mem_cons_self x (List.mem_map_of_mem hx)
    have hlabels : (l.map fun x => if label x = target r then (act r).change x else x).map label =
        l.map label := by
      rw [List.map_map]
      refine List.map_congr_left fun x _ => ?_
      simp only [Function.comp_apply]
      split
      · next hx => exact hkeeps r List.mem_cons_self x hx
      · rfl
    rw [List.foldl_cons, hrun, ih (hlabels.symm ▸ hnodup)
      (fun r' hr' => hlabels.symm ▸ hthere r' (List.mem_cons_of_mem r hr'))
      (fun r' hr' x hx => hfits r' (List.mem_cons_of_mem r hr') x (hlabels ▸ hx))
      (fun r' hr' => hkeeps r' (List.mem_cons_of_mem r hr')), List.map_map]
    refine List.map_congr_left fun x _ => ?_
    rw [Function.comp_apply]
    by_cases hx : label x = target r
    · rw [if_pos hx, hkeeps r List.mem_cons_self x hx, List.filter_cons,
        if_pos (decide_eq_true hx.symm), List.foldl_cons]
    · rw [if_neg hx, List.filter_cons, if_neg (by simpa using Ne.symm hx)]

end Act

/-- The element of a member of a class. -/
def MemberKind.element (kind : MemberKind) (owner : String) (desc : Option String) : Element :=
  match kind with
  | .field => .field owner desc
  | .method => .method owner desc

namespace MemberMapping

/-- What a member is told apart by: its source name and its descriptor. -/
def label (m : MemberMapping) : Option String × Option String := (m.names.get? 0, m.desc)

variable {members : List MemberMapping}

theorem clashes_of_label_eq {a b : MemberMapping} (h : a.label = b.label) : a.Clashes b := by
  obtain ⟨hname, hdesc⟩ := Prod.mk.inj h
  refine ⟨hname, ?_⟩
  rw [hdesc]
  cases b.desc with
  | none => rfl
  | some d => exact beq_self_eq_true d

theorem nodup_label (h : members.Pairwise fun a b => ¬ a.Clashes b) :
    (members.map label).Nodup :=
  List.pairwise_map.2 (h.imp fun hapart hsame => hapart (clashes_of_label_eq hsame))

/-- Among members that are told apart, a source name and a descriptor fit only the member they
belong to. -/
theorem fits_eq_label (h : members.Pairwise fun a b => ¬ a.Clashes b) {key : String}
    {desc : Option String} (hthere : (some key, desc) ∈ members.map label) {m : MemberMapping}
    (hm : m.label ∈ members.map label) :
    m.fits 0 key desc = decide (m.label = (some key, desc)) := by
  obtain ⟨a, ha, hlabel⟩ := List.mem_map.1 hm
  obtain ⟨b, hb, hkey⟩ := List.mem_map.1 hthere
  rw [Bool.eq_iff_iff, decide_eq_true_eq, fits, Bool.and_eq_true, beq_iff_eq]
  constructor
  · rintro ⟨hname, hfit⟩
    have hclash : a.Clashes b := by
      obtain ⟨hname', hdesc'⟩ := Prod.mk.inj hlabel
      obtain ⟨hname'', hdesc''⟩ := Prod.mk.inj hkey
      refine ⟨(hname'.trans hname).trans hname''.symm, ?_⟩
      rw [hdesc', hdesc'']
      exact hfit
    have hsymm : Std.Symm fun a b : MemberMapping => ¬ a.Clashes b :=
      ⟨fun _ _ hapart hclash => hapart hclash.symm⟩
    by_cases hsame : a = b
    · rw [← hlabel, ← hkey, hsame]
    · exact absurd hclash (h.forall ha hb hsame)
  · intro hsame
    obtain ⟨hname, hdesc⟩ := Prod.mk.inj hsame
    refine ⟨hname, ?_⟩
    rw [← hdesc]
    exact (clashes_of_label_eq (rfl : m.label = m.label)).2

end MemberMapping

namespace Record

/-- The source name and the descriptor that a record bears. -/
def label (r : Record) : Option String × Option String :=
  (r.key?, match r.element with
    | .field _ desc | .method _ desc => desc
    | .type | .param .. => none)

/-- A record that bears the source name and the descriptor of a member. -/
structure Labels (kind : MemberKind) (members : List MemberMapping) (r : Record) : Prop where
  element : ∃ owner, r.element = kind.element owner r.label.2
  keyed : r.key?.isSome
  there : r.label ∈ members.map (·.label)

/-- The records write over the names of an element one after the other. -/
def writeAll (columns : List Nat) (records : List Record) (names : Names) : Names :=
  records.foldl (fun names r => names.write columns r 1) names

/-- The last comment of the records stands over an earlier one. -/
def commentAll (records : List Record) (comment : Option String) : Option String :=
  records.foldl (fun comment r => r.commentOver comment) comment

end Record

/-- Change names and comments of the members of a kind; all else of the class stays. -/
def ClassMapping.editMembers (kind : MemberKind) (names : MemberMapping → Names)
    (comment : MemberMapping → Option String → Option String) (c : ClassMapping) : ClassMapping :=
  match kind with
  | .field => { c with fields := c.fields.map fun f =>
      { f with names := names f.member, comment := comment f.member f.comment } }
  | .method => { c with methods := c.methods.map fun m =>
      { m with names := names m.member, comment := comment m.member m.comment } }

theorem ClassMapping.members_editMembers {kind : MemberKind} {c : ClassMapping}
    {names : MemberMapping → Names} {comment : MemberMapping → Option String → Option String} :
    (c.editMembers kind names comment).members kind =
      (c.members kind).map fun m => { m with names := names m } := by
  cases kind <;> simp only [editMembers, members, List.map_map] <;> rfl

theorem ClassMapping.editMembers_congr {kind : MemberKind} {c : ClassMapping}
    {names names' : MemberMapping → Names}
    {comment comment' : MemberMapping → Option String → Option String}
    (h : ∀ m ∈ c.members kind, names m = names' m ∧ comment m = comment' m) :
    c.editMembers kind names comment = c.editMembers kind names' comment' := by
  cases kind with
  | field =>
    refine congrArg (fun fields => { c with fields }) (List.map_congr_left fun f hf => ?_)
    obtain ⟨hnames, hcomment⟩ := h f.member (List.mem_map_of_mem hf)
    rw [hnames, hcomment]
  | method =>
    refine congrArg (fun methods => { c with methods }) (List.map_congr_left fun m hm => ?_)
    obtain ⟨hnames, hcomment⟩ := h m.member (List.mem_map_of_mem hm)
    rw [hnames, hcomment]

section Single

variable {columns : List Nat} {records : List Record} {kind : MemberKind} {c : ClassMapping}

/-- Acts that fit members by key and descriptor, one for each record, are sorted by members. -/
theorem Act.foldl_run_labels {α : Type} {member : α → MemberMapping} (act : Record → Act α)
    {l : List α} (hapart : (l.map member).Pairwise fun a b => ¬ a.Clashes b)
    (hrecords : ∀ r ∈ records, r.Labels kind (l.map member))
    (hfits : ∀ r ∈ records, ∀ key, r.key? = some key → ∀ x,
      (act r).fits x = (member x).fits 0 key r.label.2)
    (hkeeps : ∀ r ∈ records, ∀ x, (member x).label = r.label →
      (member ((act r).change x)).label = (member x).label) :
    records.foldl (fun l r => (act r).run l) l = l.map fun x =>
      (records.filter (·.label = (member x).label)).foldl (fun x r => (act r).change x) x := by
  have hlabels : l.map (fun x => (member x).label) = (l.map member).map (·.label) := by
    rw [List.map_map]
    rfl
  refine foldl_run_eq_map (fun x => (member x).label) ?_ ?_ ?_ hkeeps
  · rw [hlabels]
    exact MemberMapping.nodup_label hapart
  · intro r hr
    rw [hlabels]
    exact (hrecords r hr).there
  · intro r hr x hx
    obtain ⟨key, hkey⟩ := Option.isSome_iff_exists.1 (hrecords r hr).keyed
    have hlabel : (some key, r.label.2) = r.label := by rw [← hkey]; rfl
    rw [hlabels] at hx
    rw [hfits r hr key hkey, MemberMapping.fits_eq_label hapart
      (hlabel ▸ (hrecords r hr).there) hx, hlabel]

theorem FieldMapping.foldl_annotate {f : FieldMapping} (h : ∀ r ∈ records, r.label.2 = f.desc) :
    records.foldl (fun f r => f.annotate columns r.label.2 r) f = { f with
      names := Record.writeAll columns records f.names
      comment := Record.commentAll records f.comment } := by
  induction records generalizing f with
  | nil => rfl
  | cons r records ih =>
    have hdesc : (f.annotate columns r.label.2 r).desc = f.desc := by
      rw [annotate, h r List.mem_cons_self]
      cases f.desc <;> rfl
    rw [List.foldl_cons, ih fun r' hr' => (h r' (List.mem_cons_of_mem r hr')).trans hdesc.symm,
      hdesc]
    rfl

theorem MethodMapping.foldl_annotate {m : MethodMapping} (h : ∀ r ∈ records, r.label.2 = m.desc) :
    records.foldl (fun m r => m.annotate columns r.label.2 r) m = { m with
      names := Record.writeAll columns records m.names
      comment := Record.commentAll records m.comment } := by
  induction records generalizing m with
  | nil => rfl
  | cons r records ih =>
    have hdesc : (m.annotate columns r.label.2 r).desc = m.desc := by
      rw [annotate, h r List.mem_cons_self]
      cases m.desc <;> rfl
    rw [List.foldl_cons, ih fun r' hr' => (h r' (List.mem_cons_of_mem r hr')).trans hdesc.symm,
      hdesc]
    rfl

theorem KeyView.sourceDesc_first (desc : Option String) :
    desc.map KeyView.first.sourceDesc = desc := by
  cases desc <;> rfl

/-- A record of a member keeps what the member is told apart by. -/
theorem MemberMapping.label_annotate (hzero : 0 ∉ columns.drop 1) {r : Record} {m : MemberMapping}
    (h : m.label = r.label) : (m.annotate columns r.label.2 r).label = m.label := by
  have hdesc : m.desc = r.label.2 := congrArg Prod.snd h
  rw [label, label, annotate, Names.get?_write_of_not_mem hzero, ← hdesc]
  cases m.desc <;> rfl

namespace ClassMapping

theorem foldl_fields (act : Record → Act FieldMapping) (records : List Record) (c : ClassMapping) :
    records.foldl (fun c r => { c with fields := (act r).run c.fields }) c =
      { c with fields := records.foldl (fun fields r => (act r).run fields) c.fields } := by
  induction records generalizing c with
  | nil => rfl
  | cons r records ih => exact ih _

theorem foldl_methods (act : Record → Act MethodMapping) (records : List Record)
    (c : ClassMapping) :
    records.foldl (fun c r => { c with methods := (act r).run c.methods }) c =
      { c with methods := records.foldl (fun methods r => (act r).run methods) c.methods } := by
  induction records generalizing c with
  | nil => rfl
  | cons r records ih => exact ih _

theorem foldl_change_fields (hzero : 0 ∉ columns.drop 1)
    (hapart : (c.members .field).Pairwise fun a b => ¬ a.Clashes b)
    (h : ∀ r ∈ records, r.Labels .field (c.members .field)) :
    records.foldl (fun c r => r.change .first columns c) c = { c with
      fields := c.fields.map fun f => (records.filter (·.label = f.member.label)).foldl
        (fun f r => f.annotate columns r.label.2 r) f } := by
  let act (r : Record) := FieldMapping.act .first columns (r.key?.getD "") r.label.2 r
  have hstep : ∀ (c : ClassMapping), ∀ r ∈ records,
      r.change .first columns c = { c with fields := (act r).run c.fields } := by
    intro c r hr
    obtain ⟨owner, helement⟩ := (h r hr).element
    obtain ⟨key, hkey⟩ := Option.isSome_iff_exists.1 (h r hr).keyed
    rw [Record.change, helement]
    dsimp only [MemberKind.element]
    rw [KeyView.sourceDesc_first, annotateField_eq_run hkey]
    simp only [act, hkey, Option.getD_some]
  have hrun := Act.foldl_run_labels act hapart h
    (fun r _ key hkey f => by simp only [act, hkey, Option.getD_some]; rfl)
    (fun r _ f hf => MemberMapping.label_annotate hzero hf)
  rw [List.foldl_ext _ _ c hstep, foldl_fields, hrun]
  rfl

theorem foldl_change_methods (hzero : 0 ∉ columns.drop 1)
    (hapart : (c.members .method).Pairwise fun a b => ¬ a.Clashes b)
    (h : ∀ r ∈ records, r.Labels .method (c.members .method)) :
    records.foldl (fun c r => r.change .first columns c) c = { c with
      methods := c.methods.map fun m => (records.filter (·.label = m.member.label)).foldl
        (fun m r => m.annotate columns r.label.2 r) m } := by
  let act (r : Record) := MethodMapping.act .first columns (r.key?.getD "") r.label.2 r
  have hstep : ∀ (c : ClassMapping), ∀ r ∈ records,
      r.change .first columns c = { c with methods := (act r).run c.methods } := by
    intro c r hr
    obtain ⟨owner, helement⟩ := (h r hr).element
    obtain ⟨key, hkey⟩ := Option.isSome_iff_exists.1 (h r hr).keyed
    rw [Record.change, helement]
    dsimp only [MemberKind.element]
    rw [KeyView.sourceDesc_first, annotateMethod_eq_run hkey]
    simp only [act, hkey, Option.getD_some]
  have hrun := Act.foldl_run_labels act hapart h
    (fun r _ key hkey m => by simp only [act, hkey, Option.getD_some]; rfl)
    (fun r _ m hm => MemberMapping.label_annotate hzero hm)
  rw [List.foldl_ext _ _ c hstep, foldl_methods, hrun]
  rfl

/-- Records of one member each change each member of a class by those that bear its label. -/
theorem foldl_change_eq_editMembers (hzero : 0 ∉ columns.drop 1)
    (hapart : (c.members kind).Pairwise fun a b => ¬ a.Clashes b)
    (h : ∀ r ∈ records, r.Labels kind (c.members kind)) :
    records.foldl (fun c r => r.change .first columns c) c = c.editMembers kind
      (fun m => Record.writeAll columns (records.filter (·.label = m.label)) m.names)
      (fun m => Record.commentAll (records.filter (·.label = m.label))) := by
  have hdesc : ∀ (m : MemberMapping), ∀ r ∈ records.filter (·.label = m.label),
      r.label.2 = m.desc := by
    intro m r hr
    have hsame : r.label = m.label := by simpa using (List.mem_filter.1 hr).2
    exact congrArg Prod.snd hsame
  cases kind with
  | field =>
    rw [foldl_change_fields hzero hapart h, editMembers]
    simp only [FieldMapping.foldl_annotate (hdesc (FieldMapping.member _))]
    rfl
  | method =>
    rw [foldl_change_methods hzero hapart h, editMembers]
    simp only [MethodMapping.foldl_annotate (hdesc (MethodMapping.member _))]
    rfl

end ClassMapping

end Single

end JarRemap
