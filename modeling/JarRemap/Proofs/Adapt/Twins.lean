import JarRemap.Proofs.Adapt.Rekey
import JarRemap.Proofs.Merge.Parallel
import Mathlib.Data.List.Forall2

/-!
# Two trees of one source

A source and the same source keyed by another column are merged record by record. At every moment
the two trees hold the same classes and members in the same order: each has the source name of its
own tree, and beyond that either no name yet, or the same names with the two columns exchanged.
-/

namespace JarRemap

namespace Names

/-- Names of an element that has none but its source name. -/
def Bare (names : Names) : Prop := ∀ column, 0 < column → names.get? column = none

/-- The same names, with the first column and another one exchanged. -/
def Swapped (k : Nat) (names names' : Names) : Prop :=
  ∀ column, names'.get? (Equiv.swap 0 k column) = names.get? column

theorem bare_ofSource (name : String) : (ofSource name).Bare :=
  fun column hpos => within_ofSource Nat.one_pos name column hpos

/-- Once a record and its form under the other key were written, the names are exchanged. -/
theorem swapped_write {k width : Nat} (hpos : 0 < k) (hlt : k < width) {names names' : Names}
    {r r' : Record} {x y : String} (hx : names.get? 0 = some x) (hy : names'.get? 0 = some y)
    (hrest : names.Bare ∧ names'.Bare ∨ names.Swapped k names') (hrx : r.name? 0 = some x)
    (hry : r.name? k = some y) (hr' : ∀ j, r'.name? j = r.name? (Equiv.swap 0 k j)) :
    Swapped k (names.write (List.range width) r 1) (names'.write (List.range width) r' 1) := by
  intro j
  rw [get?_write_range, get?_write_range, hr']
  by_cases hzero : j = 0
  · subst hzero
    rw [Equiv.swap_apply_left, Equiv.swap_apply_right, if_pos ⟨hpos, hlt⟩, if_neg (by omega), hrx,
      Option.some_or, hx]
  · by_cases hj : j = k
    · subst hj
      rw [Equiv.swap_apply_right, if_neg (by omega), if_pos ⟨hpos, hlt⟩, hry, Option.some_or, hy]
    · rw [Equiv.swap_apply_of_ne_of_ne hzero hj, Equiv.swap_apply_of_ne_of_ne hzero hj]
      have hsame : names'.get? j = names.get? j := by
        rcases hrest with ⟨hbare, hbare'⟩ | hswapped
        · rw [hbare j (Nat.pos_of_ne_zero hzero), hbare' j (Nat.pos_of_ne_zero hzero)]
        · have := hswapped j
          rwa [Equiv.swap_apply_of_ne_of_ne hzero hj] at this
      rw [hsame]

end Names

section Forall2

variable {α β : Type} {R : α → β → Prop} {l : List α} {l' : List β}

theorem findIdx?_eq_of_forall₂ {p : α → Bool} {p' : β → Bool} (h : List.Forall₂ R l l')
    (hp : ∀ a b, R a b → p a = p' b) : l.findIdx? p = l'.findIdx? p' := by
  induction h with
  | nil => rfl
  | cons hab _ ih => rw [List.findIdx?_cons, List.findIdx?_cons, hp _ _ hab, ih]

theorem forall₂_modify {f : α → α} {g : β → β} (h : List.Forall₂ R l l') {i : Nat}
    (hfg : ∀ a b, l[i]? = some a → R a b → R (f a) (g b)) :
    List.Forall₂ R (l.modify i f) (l'.modify i g) := by
  induction h generalizing i with
  | nil =>
    rw [List.modify_nil, List.modify_nil]
    exact .nil
  | cons hab hrest ih =>
    cases i with
    | zero =>
      rw [List.modify_zero_cons, List.modify_zero_cons]
      exact .cons (hfg _ _ rfl hab) hrest
    | succ i =>
      rw [List.modify_succ_cons, List.modify_succ_cons]
      exact .cons hab (ih fun a b ha => hfg a b (by rwa [List.getElem?_cons_succ]))

end Forall2

/-- Two lists of members stay related, if related members are found by the same keys. -/
theorem MemberMapping.forall₂_upsert {R : MemberMapping → MemberMapping → Prop}
    {members members' : List MemberMapping} (h : List.Forall₂ R members members')
    {key key' : String} {desc desc' : Option String}
    {change change' : MemberMapping → MemberMapping}
    (hfor : ∀ m m', R m m' → m.isFor key desc = m'.isFor key' desc')
    (hchange : ∀ m m', R m m' → m.isFor key desc = true → R (change m) (change' m'))
    (hnew : R (change ⟨.ofSource key, desc⟩) (change' ⟨.ofSource key', desc'⟩)) :
    List.Forall₂ R (upsert key desc change members) (upsert key' desc' change' members') := by
  unfold upsert
  rw [← findIdx?_eq_of_forall₂ h hfor]
  cases hi : members.findIdx? (·.isFor key desc) with
  | none => exact List.rel_append h (.cons hnew .nil)
  | some i =>
    refine forall₂_modify h fun m m' hm hR => hchange m m' hR ?_
    obtain ⟨hlt, hfound, -⟩ := List.findIdx?_eq_some_iff_getElem.1 hi
    rw [List.getElem?_eq_getElem hlt] at hm
    exact Option.some.inj hm ▸ hfound

namespace Element

/-- The kind of the member that an element is, or belongs to. -/
def memberKind? : Element → Option MemberKind
  | .type => none
  | .field .. => some .field
  | .method .. | .param .. => some .method

theorem memberKind?_eq_none_iff {e : Element} : e.memberKind? = none ↔ e = .type := by
  cases e <;> simp [memberKind?]

end Element

namespace Record

theorem owner?_first (r : Record) :
    r.owner? .first = if r.element = .type then r.key? else r.element.owner? := by
  unfold owner? Element.owner?
  cases r.element with
  | type =>
    rw [if_pos rfl]
    cases r.key? <;> rfl
  | field | method | param => rfl

theorem memberKind?_of_mentions? {kind : MemberKind} {r : Record} {key : MemberKey}
    (h : r.mentions? kind = some key) : r.element.memberKind? = some kind := by
  unfold mentions? memberKey? at h
  cases kind <;> cases helement : r.element <;> rw [helement] at h <;> first | rfl | cases h

theorem exists_mentions? {kind : MemberKind} {r : Record}
    (hnamed : r.element.isParam = false → (r.name? 0).isSome)
    (h : r.element.memberKind? = some kind) : ∃ key, r.mentions? kind = some key := by
  unfold mentions? memberKey? key?
  cases helement : r.element with
  | type =>
    rw [helement] at h
    cases h
  | field owner desc | method owner desc =>
    rw [helement] at h hnamed
    cases h
    obtain ⟨name, hname⟩ := Option.isSome_iff_exists.1 (hnamed rfl)
    exact ⟨_, by rw [hname]; rfl⟩
  | param owner method desc index =>
    rw [helement] at h
    cases h
    exact ⟨_, rfl⟩

theorem owner?_of_mentions? {kind : MemberKind} {r : Record} {key : MemberKey}
    (h : r.mentions? kind = some key) : r.element.owner? = some key.owner := by
  unfold mentions? at h
  split at h
  · next helement =>
    rw [helement]
    cases h
    rfl
  · exact (memberKey?_eq_some h).2.1

end Record

namespace Source

/-- One member in the two trees, by its key and its other name. -/
structure MemberTwin (s : Source) (k : Nat) (kind : MemberKind) (key : MemberKey) (name : String)
    (m m' : MemberMapping) : Prop where
  other : s.OtherName k kind key name
  source : m.names.get? 0 = some key.name
  source' : m'.names.get? 0 = some name
  desc : m.desc = key.desc
  desc' : m'.desc = key.desc.map (Descriptor.rename (s.classMap k))
  rest : m.names.Bare ∧ m'.names.Bare ∨
    m.names.Swapped k m'.names ∧ ∃ r ∈ s.records, r.memberKey? kind = some key

/-- Two forms of one member of a class. -/
def Twins (s : Source) (k : Nat) (kind : MemberKind) (owner : String) (m m' : MemberMapping) :
    Prop :=
  ∃ key name, key.owner = owner ∧ s.MemberTwin k kind key name m m'

/-- One class in the two trees, by its key. -/
structure ClassTwin (s : Source) (k : Nat) (key : String) (c c' : ClassMapping) : Prop where
  source : c.names.get? 0 = some key
  source' : c'.names.get? 0 = some ((s.classMap k).image key)
  rest : c.names.Bare ∧ c'.names.Bare ∨ c.names.Swapped k c'.names
  members : ∀ kind, List.Forall₂ (s.Twins k kind key) (c.members kind) (c'.members kind)

/-- The two entries of one class of the source. -/
structure EntryTwin (s : Source) (k : Nat) (e e' : String × ClassMapping) : Prop where
  known : s.HasClass 0 e.1
  key : e'.1 = (s.classMap k).image e.1
  twin : s.ClassTwin k e.1 e.2 e'.2

variable {s : Source} {k : Nat} {kind : MemberKind} {key : MemberKey} {name : String}

namespace MemberTwin

variable {m m' : MemberMapping}

/-- Both forms are found by a key and its other name, or none is. -/
theorem isFor_eq (h : s.Switchable k) {key' : MemberKey} {name' : String}
    (htwin : s.MemberTwin k kind key name m m') (howner : key.owner = key'.owner)
    (hother : s.OtherName k kind key' name') :
    m.isFor key'.name key'.desc =
      m'.isFor name' (key'.desc.map (Descriptor.rename (s.classMap k))) := by
  have hclash := h.clashes_iff howner htwin.other hother
  rw [Bool.eq_iff_iff, MemberMapping.isFor, MemberMapping.isFor, htwin.source, htwin.source',
    htwin.desc, htwin.desc']
  simp only [Bool.and_eq_true, beq_iff_eq, Option.some.injEq]
  rw [← hclash]
  exact ⟨fun hfor => ⟨howner, hfor.1, hfor.2⟩, fun hfor => ⟨hfor.2.1, hfor.2.2⟩⟩

/-- A new member is there without further names in both trees. -/
theorem ofSource (hother : s.OtherName k kind key name) :
    s.MemberTwin k kind key name ⟨.ofSource key.name, key.desc⟩
      ⟨.ofSource name, key.desc.map (Descriptor.rename (s.classMap k))⟩ where
  other := hother
  source := rfl
  source' := rfl
  desc := rfl
  desc' := rfl
  rest := .inl ⟨Names.bare_ofSource _, Names.bare_ofSource _⟩

/-- A record of a member and its form under the other key write the same. -/
theorem annotate (h : s.Switchable k) (hpos : 0 < k) (htwin : s.MemberTwin k kind key name m m')
    {r : Record} (hr : r ∈ s.records) (hkey : r.memberKey? kind = some key)
    (hname : r.name? k = some name) (hparam : r.element.isParam = false) :
    s.MemberTwin k kind key name (m.annotate (List.range s.width) key.desc r)
      (m'.annotate (List.range s.width) (key.desc.map (Descriptor.rename (s.classMap k)))
        (s.rekeyed k r)) where
  other := htwin.other
  source := (MemberMapping.becomes_annotate s.width _ r m).name.trans htwin.source
  source' := (MemberMapping.becomes_annotate s.width _ _ m').name.trans htwin.source'
  desc := by
    rw [MemberMapping.annotate, htwin.desc]
    cases key.desc <;> rfl
  desc' := by
    rw [MemberMapping.annotate, htwin.desc']
    cases key.desc <;> rfl
  rest := by
    refine .inr ⟨?_, r, hr, hkey⟩
    refine Names.swapped_write hpos h.inside htwin.source htwin.source' ?_
      (Record.memberKey?_eq_some hkey).1 hname fun j => ?_
    · exact htwin.rest.imp id And.left
    · rw [rekeyed_of_not_isParam hparam, Record.name?_keyedBy (by rw [hname]; rfl)]

end MemberTwin

theorem memberKind?_rekeyed (s : Source) (k : Nat) (r : Record) :
    (s.rekeyed k r).element.memberKind? = r.element.memberKind? := by
  have hkeyed : (r.keyedBy k (s.classMap k)).element.memberKind? = r.element.memberKind? := by
    rw [Record.element_keyedBy]
    cases r.element <;> rfl
  rw [← hkeyed]
  unfold rekeyed renameMethodOf
  split
  · next helement =>
    rw [helement]
    rfl
  · rfl

theorem element_rekeyed_eq_type_iff {r : Record} :
    (s.rekeyed k r).element = .type ↔ r.element = .type := by
  rw [← Element.memberKind?_eq_none_iff, memberKind?_rekeyed, Element.memberKind?_eq_none_iff]

namespace Switchable

/-- A record that speaks of no member does not do so under the other key. -/
theorem mentions?_rekeyed_eq_none (h : s.Switchable k) {r : Record} (hr : r ∈ s.records)
    (hnone : r.mentions? kind = none) : (s.rekeyed k r).mentions? kind = none := by
  rw [Option.eq_none_iff_forall_ne_some]
  intro key' hkey'
  have hkind := Record.memberKind?_of_mentions? hkey'
  rw [memberKind?_rekeyed] at hkind
  obtain ⟨key, hkey⟩ :=
    Record.exists_mentions? (fun hmember => h.named r hr hmember 0 List.mem_cons_self) hkind
  rw [hnone] at hkey
  cases hkey

/-- A record speaks of a class of the source, and of the same one under the other key. -/
theorem exists_owner? (h : s.Switchable k) {r : Record} (hr : r ∈ s.records) :
    ∃ name, r.owner? .first = some name ∧ s.HasClass 0 name ∧
      (s.rekeyed k r).owner? .first = some ((s.classMap k).image name) ∧
      (r.element = .type → r.className? 0 = some name) := by
  by_cases helement : r.element = .type
  · obtain ⟨name, hname⟩ := h.twoNamed.exists_className? hr helement List.mem_cons_self
    obtain ⟨other, hother⟩ := h.twoNamed.exists_className? hr helement
      (List.mem_cons_of_mem 0 List.mem_cons_self)
    have hmap : s.classMap k name = some other :=
      h.twoNamed.classMap_eq_some_iff.2 ⟨r, hr, hname, hother⟩
    have hnamed := (Record.className?_eq_some_iff.1 hother).2
    have hkey : (s.rekeyed k r).key? = some other := by
      rw [rekeyed_of_not_isParam (by rw [helement]; rfl), Record.key?,
        Record.name?_keyedBy (by rw [hnamed]; rfl), Equiv.swap_apply_left, hnamed]
    refine ⟨name, ?_, ⟨r, hr, hname⟩, ?_, fun _ => hname⟩
    · rw [Record.owner?_first, if_pos helement]
      exact (Record.className?_eq_some_iff.1 hname).2
    · rw [Record.owner?_first, if_pos (element_rekeyed_eq_type_iff.2 helement), hkey,
        ClassMap.image, hmap, Option.getD_some]
  · obtain ⟨name, hname⟩ : ∃ name, r.element.owner? = some name := by
      cases hcase : r.element with
      | type => exact absurd hcase helement
      | field owner | method owner | param owner => exact ⟨owner, rfl⟩
    refine ⟨name, ?_, h.owners r hr name hname, ?_, fun htype => absurd htype helement⟩
    · rw [Record.owner?_first, if_neg helement, hname]
    · rw [Record.owner?_first, if_neg fun htype => helement (element_rekeyed_eq_type_iff.1 htype),
        owner?_rekeyed, hname, Option.map_some]

/-- The member that a record speaks of belongs to the class that it speaks of. -/
theorem owner_of_mentions? {r : Record} (hkey : r.mentions? kind = some key)
    (howner : r.owner? .first = some name) : key.owner = name := by
  have hmember := Record.owner?_of_mentions? hkey
  have helement : r.element ≠ .type := by
    intro htype
    rw [htype] at hmember
    cases hmember
  rw [Record.owner?_first, if_neg helement, hmember] at howner
  exact Option.some.inj howner

/-- A record keeps the members of its class twins. -/
theorem forall₂_members_change (h : s.Switchable k) (hparams : s.ParamsKnown k) (hpos : 0 < k)
    {r : Record} (hr : r ∈ s.records) (howner : r.owner? .first = some name) {c c' : ClassMapping}
    (htwins : List.Forall₂ (s.Twins k kind name) (c.members kind) (c'.members kind)) :
    List.Forall₂ (s.Twins k kind name)
      ((r.change .first (List.range s.width) c).members kind)
      (((s.rekeyed k r).change .first (List.range s.width) c').members kind) := by
  rw [Record.members_change_first, Record.members_change_first]
  cases hkey : r.mentions? kind with
  | none =>
    rw [h.mentions?_rekeyed_eq_none hr hkey]
    exact htwins
  | some key =>
    obtain ⟨other, hother, hkey', hrecord⟩ := h.exists_otherName hparams hr hkey
    have hsame := owner_of_mentions? hkey howner
    rw [hkey']
    have hchange : ∀ m m', s.MemberTwin k kind key other m m' →
        s.MemberTwin k kind key other (r.changeMember (List.range s.width) key.desc m)
          ((s.rekeyed k r).changeMember (List.range s.width)
            (key.desc.map (Descriptor.rename (s.classMap k))) m') := by
      intro m m' htwin
      unfold Record.changeMember
      rw [isParam_rekeyed]
      cases hmember : r.element.isParam with
      | true => exact htwin
      | false =>
        obtain ⟨hkey, hname⟩ := hrecord hmember
        exact htwin.annotate h hpos hr hkey hname hmember
    refine MemberMapping.forall₂_upsert htwins ?_ ?_ ?_
    · rintro m m' ⟨key', name', howner', htwin⟩
      exact htwin.isFor_eq h (howner'.trans hsame.symm) hother
    · rintro m m' ⟨key', name', howner', htwin⟩ hfor
      cases hmember : r.element.isParam with
      | true =>
        refine ⟨key', name', howner', ?_⟩
        rw [Record.changeMember, if_pos hmember, Record.changeMember, isParam_rekeyed,
          if_pos hmember]
        exact htwin
      | false =>
        -- a member that a record of a member finds is that of the record
        obtain ⟨hrecordKey, hrecordName⟩ := hrecord hmember
        have hclash : key'.Clashes key := by
          rw [MemberMapping.isFor, htwin.source, htwin.desc, Bool.and_eq_true, beq_iff_eq,
            Option.some.injEq] at hfor
          exact ⟨howner'.trans hsame.symm, hfor.1, hfor.2⟩
        obtain ⟨rfl, rfl⟩ := h.eq_of_clashes hr hrecordKey hrecordName htwin.other hclash
        exact ⟨key', name', howner', hchange m m' htwin⟩
    · exact ⟨key, other, hsame, hchange _ _ (.ofSource hother)⟩

/-- A record keeps the class that it speaks of twins. -/
theorem classTwin_change (h : s.Switchable k) (hparams : s.ParamsKnown k) (hpos : 0 < k)
    {r : Record} (hr : r ∈ s.records) (howner : r.owner? .first = some name) {c c' : ClassMapping}
    (htwin : s.ClassTwin k name c c') :
    s.ClassTwin k name (r.change .first (List.range s.width) c)
      ((s.rekeyed k r).change .first (List.range s.width) c') := by
  obtain ⟨_, hsame, -, -, hclass⟩ := h.exists_owner? hr
  cases howner.symm.trans hsame
  have hzero : ∀ (names : Names) (r : Record),
      (names.write (List.range s.width) r 1).get? 0 = names.get? 0 :=
    fun names r => (Names.get?_write_range ..).trans (if_neg (by omega))
  refine ⟨?_, ?_, ?_, fun kind => h.forall₂_members_change hparams hpos hr howner
    (htwin.members kind)⟩
  · rw [Record.names_change]
    split
    · rw [hzero, htwin.source]
    · exact htwin.source
  · rw [Record.names_change]
    split
    · rw [hzero, htwin.source']
    · exact htwin.source'
  · rw [Record.names_change, Record.names_change]
    by_cases helement : r.element = .type
    · rw [if_pos helement, if_pos (element_rekeyed_eq_type_iff.2 helement)]
      have hname := hclass helement
      obtain ⟨other, hother⟩ := h.twoNamed.exists_className? hr helement
        (List.mem_cons_of_mem 0 List.mem_cons_self)
      have hmap : s.classMap k name = some other :=
        h.twoNamed.classMap_eq_some_iff.2 ⟨r, hr, hname, hother⟩
      have hsource' := htwin.source'
      rw [ClassMap.image, hmap, Option.getD_some] at hsource'
      have hnamed := (Record.className?_eq_some_iff.1 hother).2
      refine .inr (Names.swapped_write hpos h.inside htwin.source hsource' htwin.rest
        (Record.className?_eq_some_iff.1 hname).2 hnamed fun j => ?_)
      rw [rekeyed_of_not_isParam (by rw [helement]; rfl),
        Record.name?_keyedBy (by rw [hnamed]; rfl)]
    · rw [if_neg helement, if_neg fun htype => helement (element_rekeyed_eq_type_iff.1 htype)]
      exact htwin.rest

/-- A record keeps the classes of the two trees twins. -/
theorem forall₂_apply (h : s.Switchable k) (hparams : s.ParamsKnown k) (hpos : 0 < k) {r : Record}
    (hr : r ∈ s.records) {classes classes' : OrderedMap String ClassMapping}
    (htwins : List.Forall₂ (s.EntryTwin k) classes.entries classes'.entries) :
    List.Forall₂ (s.EntryTwin k)
      (MappingTree.apply .first (List.range s.width) classes r).entries
      (MappingTree.apply .first (List.range s.width) classes' (s.rekeyed k r)).entries := by
  obtain ⟨name, howner, hknown, howner', -⟩ := h.exists_owner? hr
  have hkey : ∀ e e', s.EntryTwin k e e' →
      decide (e.1 = name) = decide (e'.1 = (s.classMap k).image name) := by
    intro e e' htwin
    rw [decide_eq_decide, htwin.key, h.twoNamed.image_classMap_inj (.inl htwin.known) (.inl hknown)]
  have hentries : ∀ (m : OrderedMap String ClassMapping) (key : String) (r : Record),
      ((m.insertNew key (.ofSource key)).modify key
          (r.change .first (List.range s.width))).entries =
        (if m.contains key then m.entries else m.entries ++ [(key, .ofSource key)]).map
          fun e => if e.1 = key then (e.1, r.change .first (List.range s.width) e.2) else e := by
    intro m key r
    rw [OrderedMap.modify, OrderedMap.insertNew]
    dsimp only
    split <;> rfl
  have hnew : s.EntryTwin k (name, .ofSource name)
      ((s.classMap k).image name, .ofSource ((s.classMap k).image name)) := by
    refine ⟨hknown, rfl, rfl, rfl, .inl ⟨Names.bare_ofSource _, Names.bare_ofSource _⟩, ?_⟩
    intro kind
    cases kind <;> exact .nil
  have hthere : classes.contains name = classes'.contains ((s.classMap k).image name) :=
    any_eq_of_forall₂ htwins hkey
  rw [MappingTree.apply_first howner, MappingTree.apply_first howner', hentries, hentries,
    ← hthere, List.forall₂_map_left_iff, List.forall₂_map_right_iff]
  refine List.Forall₂.imp (R := s.EntryTwin k) (fun e e' htwin => ?_) ?_
  · have hsame := decide_eq_decide.1 (hkey e e' htwin)
    by_cases he : e.1 = name
    · rw [if_pos he, if_pos (hsame.1 he)]
      refine ⟨htwin.known, htwin.key, h.classTwin_change hparams hpos hr ?_ htwin.twin⟩
      rw [howner, he]
    · rw [if_neg he, if_neg fun he' => he (hsame.2 he')]
      exact htwin
  · split
    · exact htwins
    · exact List.rel_append htwins (.cons hnew .nil)

/-- The two trees of a source hold the same classes in the same order. -/
theorem forall₂_foldl (h : s.Switchable k) (hparams : s.ParamsKnown k) (hpos : 0 < k) :
    List.Forall₂ (s.EntryTwin k)
      (s.records.foldl (MappingTree.apply .first (List.range s.width)) {}).entries
      ((s.records.map (s.rekeyed k)).foldl
        (MappingTree.apply .first (List.range s.width)) {}).entries := by
  have hrun : ∀ records ⊆ s.records, ∀ classes classes' : OrderedMap String ClassMapping,
      List.Forall₂ (s.EntryTwin k) classes.entries classes'.entries →
      List.Forall₂ (s.EntryTwin k)
        (records.foldl (MappingTree.apply .first (List.range s.width)) classes).entries
        ((records.map (s.rekeyed k)).foldl
          (MappingTree.apply .first (List.range s.width)) classes').entries := by
    intro records
    induction records with
    | nil => exact fun _ _ _ htwins => htwins
    | cons r records ih =>
      intro hsub classes classes' htwins
      obtain ⟨hr, hrest⟩ := List.cons_subset.1 hsub
      exact ih hrest _ _ (h.forall₂_apply hparams hpos hr htwins)
  exact hrun s.records (List.Subset.refl _) {} {} .nil

end Switchable

end Source

end JarRemap
