import JarRemap.Proofs.Dictionary.Apart
import JarRemap.Proofs.Dictionary.Layered

/-!
# Dictionaries in a chain

From one namespace to a second and on to a third is the way from the first to the third, if the
names of the first two tell the classes and members of the tree apart. The second dictionary writes
its keys with descriptors that lead from the source namespace to its own, the first one gives
descriptors that lead there from another namespace; the two meet because a class keeps the other
names it has, and a class that is none of the tree bears none of them.
-/

namespace JarRemap

namespace Dictionary

open MappingTree

variable {t : MappingTree} {a b c : Namespace} {first second third : Nat}

/-- What a dictionary makes of a look-up is a look-up for the same member in its second column. -/
theorem declares_second (hfirst : t.Apart first) (hsecond : t.Named second) {kind : MemberKind}
    {owner name desc renamed : String} {c : ClassMapping} {m : MemberMapping}
    (hm : t.Declares first kind owner name desc c m) (hrenamed : m.names.get? second = some renamed) :
    let d := ofColumns t a b first second
    t.Declares second kind (ClassMap.image d.newClass? owner) renamed (d.newDescriptor desc) c m := by
  intro d
  obtain ⟨owner', howner'⟩ := Option.isSome_iff_exists.1 (hsecond.classes c hm.mem)
  have hnew : d.newClass? owner = some owner' :=
    (newClass?_iff hfirst hsecond).2 ⟨c, hm.mem, hm.owner, howner'⟩
  have himage : ClassMap.image d.newClass? owner = owner' := by
    rw [ClassMap.image, hnew, Option.getD_some]
  rw [himage]
  refine ⟨hm.mem, howner', hm.member, hrenamed, descriptorsFit_map_some.2 ?_⟩
  cases hdesc : m.desc with
  | none => exact .inr rfl
  | some given =>
    left
    have hfits := hm.fits
    simp only [hdesc, Option.map_some, descriptorsFit, beq_iff_eq] at hfits
    rw [Option.map_some, ← hfits,
      newDescriptor_nameIn hfirst hsecond hm.mem hm.member hdesc]

/-- One dictionary leads from a column to a second, another one from there on, and a third one the
whole way at once. -/
structure Chained (t : MappingTree) (first second third : Nat) (ab bc ac : Dictionary) :
    Prop where
  classes : ∀ name, (ab.newClass? name).bind bc.newClass? = ac.newClass? name
  /-- The classes a descriptor mentions bear names of the first column, or none of the second. -/
  descriptors : ∀ desc,
    (∀ mentioned ∈ Descriptor.classNames desc,
      t.BearsName second mentioned → t.BearsName first mentioned) →
    bc.newDescriptor (ab.newDescriptor desc) = ac.newDescriptor desc
  members : ∀ kind owner name desc,
    ((ab.newMember? kind owner name desc).bind fun found =>
      bc.newMember? kind (ClassMap.image ab.newClass? owner) found (ab.newDescriptor desc)) =
        ac.newMember? kind owner name desc
  exactMethods : ∀ owner name desc found, ab.newMethod? owner name desc = some found →
    bc.newExactMethod? (ClassMap.image ab.newClass? owner) found (ab.newDescriptor desc) =
      ac.newExactMethod? owner name desc
  /-- Every member of the tree is found on the way and at its end, under the names that it has. -/
  declared : ∀ kind owner name desc c m, t.Declares first kind owner name desc c m →
    ab.newMember? kind owner name desc = m.names.get? second ∧
      ac.newMember? kind owner name desc = m.names.get? third

/-- One dictionary leads back what another one leads from a column to a second. -/
structure Undoes (t : MappingTree) (first second : Nat) (ab ba : Dictionary) : Prop where
  classes : ∀ name, t.BearsName first name → (ab.newClass? name).bind ba.newClass? = some name
  descriptors : ∀ desc,
    (∀ mentioned ∈ Descriptor.classNames desc,
      t.BearsName second mentioned → t.BearsName first mentioned) →
    ba.newDescriptor (ab.newDescriptor desc) = desc
  members : ∀ kind owner name desc found, ab.newMember? kind owner name desc = some found →
    ba.newMember? kind (ClassMap.image ab.newClass? owner) found (ab.newDescriptor desc) =
      some name

section

variable (hfirst : t.Apart first) (hsecond : t.Apart second) (hthird : t.Named third)
include hfirst hsecond hthird

theorem newClass?_bind (name : String) :
    ((ofColumns t a b first second).newClass? name).bind (ofColumns t b c second third).newClass? =
      (ofColumns t a c first third).newClass? name := by
  apply Option.ext
  intro renamed
  rw [Option.bind_eq_some_iff, newClass?_iff hfirst hthird]
  simp only [newClass?_iff hfirst hsecond.toNamed, newClass?_iff hsecond hthird]
  constructor
  · rintro ⟨middle, ⟨d, hd, hname, hmiddle⟩, d', hd', hmiddle', hrenamed⟩
    obtain rfl := hsecond.class_eq hd hd' (hmiddle.trans hmiddle'.symm)
    exact ⟨d, hd, hname, hrenamed⟩
  · rintro ⟨d, hd, hname, hrenamed⟩
    obtain ⟨middle, hmiddle⟩ := Option.isSome_iff_exists.1 (hsecond.classes d hd)
    exact ⟨middle, ⟨d, hd, hname, hmiddle⟩, d, hd, hmiddle, hrenamed⟩

/-- A class without a name on the first hop must not get one on the second. -/
theorem image_image {name : String} (hname : t.BearsName second name → t.BearsName first name) :
    ClassMap.image (ofColumns t b c second third).newClass?
        (ClassMap.image (ofColumns t a b first second).newClass? name) =
      ClassMap.image (ofColumns t a c first third).newClass? name := by
  have hboth := newClass?_bind (a := a) (b := b) (c := c) hfirst hsecond hthird name
  cases hmiddle : (ofColumns t a b first second).newClass? name with
  | some middle =>
    obtain ⟨d, hd, -, hbears⟩ := (newClass?_iff hfirst hsecond.toNamed).1 hmiddle
    obtain ⟨renamed, hrenamed⟩ := Option.isSome_iff_exists.1 (hthird.classes d hd)
    have hlast := (newClass?_iff (a := b) (b := c) hsecond hthird).2 ⟨d, hd, hbears, hrenamed⟩
    rw [hmiddle, Option.bind_some, hlast] at hboth
    simp [ClassMap.image, hmiddle, hlast, ← hboth]
  | none =>
    have hforeign : ¬ t.BearsName second name := by
      intro hbears
      obtain ⟨d, hd, hname⟩ := hname hbears
      obtain ⟨middle, hmiddle'⟩ := Option.isSome_iff_exists.1 (hsecond.classes d hd)
      have hsome := (newClass?_iff (a := a) (b := b) hfirst hsecond.toNamed).2
        ⟨d, hd, hname, hmiddle'⟩
      exact absurd (hsome.symm.trans hmiddle) (by simp)
    have hlast := newClass?_eq_none (a := b) (b := c) hsecond hthird hforeign
    rw [hmiddle, Option.bind_none] at hboth
    simp [ClassMap.image, hmiddle, hlast, ← hboth]

theorem newDescriptor_newDescriptor {desc : String}
    (hdesc : ∀ mentioned ∈ Descriptor.classNames desc,
      t.BearsName second mentioned → t.BearsName first mentioned) :
    (ofColumns t b c second third).newDescriptor
        ((ofColumns t a b first second).newDescriptor desc) =
      (ofColumns t a c first third).newDescriptor desc := by
  have hunbroken : ClassMap.Unbroken (ofColumns t a b first second).newClass? := by
    intro name renamed hrenamed
    obtain ⟨d, hd, -, hname⟩ := (newClass?_iff hfirst hsecond.toNamed).1 hrenamed
    exact hsecond.unbroken renamed ⟨d, hd, hname⟩
  rw [newDescriptor, newDescriptor, Descriptor.rename_rename _ hunbroken]
  apply Descriptor.rename_congr
  intro mentioned hmentioned
  rw [ClassMap.image_andThen]
  exact image_image hfirst hsecond hthird (hdesc mentioned hmentioned)

theorem newMember?_bind (kind : MemberKind) (owner name desc : String) :
    (((ofColumns t a b first second).newMember? kind owner name desc).bind fun found =>
      (ofColumns t b c second third).newMember? kind
        (ClassMap.image (ofColumns t a b first second).newClass? owner) found
        ((ofColumns t a b first second).newDescriptor desc)) =
      (ofColumns t a c first third).newMember? kind owner name desc := by
  apply Option.ext
  intro renamed
  rw [Option.bind_eq_some_iff, newMember?_iff hfirst hthird]
  simp only [newMember?_iff hfirst hsecond.toNamed, newMember?_iff hsecond hthird]
  constructor
  · rintro ⟨middle, ⟨d, m, hm, hmiddle⟩, d', m', hm', hrenamed⟩
    obtain ⟨rfl, rfl⟩ := hsecond.declares_unique hm'
      (declares_second hfirst hsecond.toNamed hm hmiddle)
    exact ⟨_, _, hm, hrenamed⟩
  · rintro ⟨d, m, hm, hrenamed⟩
    obtain ⟨middle, hmiddle⟩ :=
      Option.isSome_iff_exists.1 (hsecond.members d hm.mem kind m hm.member)
    exact ⟨middle, ⟨d, m, hm, hmiddle⟩, d, m,
      declares_second hfirst hsecond.toNamed hm hmiddle, hrenamed⟩

theorem newExactMethod?_of_newMethod? {owner name desc found : String}
    (hfound : (ofColumns t a b first second).newMethod? owner name desc = some found) :
    (ofColumns t b c second third).newExactMethod?
        (ClassMap.image (ofColumns t a b first second).newClass? owner) found
        ((ofColumns t a b first second).newDescriptor desc) =
      (ofColumns t a c first third).newExactMethod? owner name desc := by
  change (ofColumns t a b first second).newMember? .method owner name desc = some found at hfound
  obtain ⟨d, m, hm, hmiddle⟩ := (newMember?_iff hfirst hsecond.toNamed).1 hfound
  have hm₂ := declares_second (a := a) (b := b) hfirst hsecond.toNamed hm hmiddle
  apply Option.ext
  intro renamed
  rw [newExactMethod?_iff hsecond hthird, newExactMethod?_iff hfirst hthird]
  constructor
  · rintro ⟨d', m', hm', hdesc, hrenamed⟩
    obtain ⟨rfl, rfl⟩ := hsecond.declares_unique hm' hm₂
    exact ⟨_, _, hm, hdesc, hrenamed⟩
  · rintro ⟨d', m', hm', hdesc, hrenamed⟩
    obtain ⟨rfl, rfl⟩ := hfirst.declares_unique hm' hm
    exact ⟨_, _, hm₂, hdesc, hrenamed⟩

theorem chained_ofColumns : Chained t first second third (ofColumns t a b first second)
    (ofColumns t b c second third) (ofColumns t a c first third) where
  classes := newClass?_bind hfirst hsecond hthird
  descriptors _ hdesc := newDescriptor_newDescriptor hfirst hsecond hthird hdesc
  members := newMember?_bind hfirst hsecond hthird
  exactMethods _ _ _ _ hfound := newExactMethod?_of_newMethod? hfirst hsecond hthird hfound
  declared := by
    intro kind owner name desc d m hm
    obtain ⟨middle, hmiddle⟩ :=
      Option.isSome_iff_exists.1 (hsecond.members d hm.mem kind m hm.member)
    obtain ⟨renamed, hrenamed⟩ :=
      Option.isSome_iff_exists.1 (hthird.members d hm.mem kind m hm.member)
    rw [(newMember?_iff hfirst hsecond.toNamed).2 ⟨d, m, hm, hmiddle⟩,
      (newMember?_iff hfirst hthird).2 ⟨d, m, hm, hrenamed⟩, hmiddle, hrenamed]
    exact ⟨rfl, rfl⟩

end

/-- Back in the first column everything bears the name it was looked up by. -/
theorem undoes_ofColumns (hfirst : t.Apart first) (hsecond : t.Apart second) :
    Undoes t first second (ofColumns t a b first second) (ofColumns t b a second first) := by
  have hchained := chained_ofColumns (a := a) (b := b) (c := a) hfirst hsecond hfirst.toNamed
  have hsame : ∀ name, t.BearsName first name →
      (ofColumns t a a first first).newClass? name = some name := by
    rintro name ⟨d, hd, hname⟩
    exact (newClass?_iff hfirst hfirst.toNamed).2 ⟨d, hd, hname, hname⟩
  constructor
  case classes =>
    intro name hname
    rw [hchained.classes, hsame name hname]
  case descriptors =>
    intro desc hdesc
    rw [hchained.descriptors desc hdesc, newDescriptor]
    apply Descriptor.rename_eq_self
    intro mentioned _
    by_cases hbears : t.BearsName first mentioned
    · simp [ClassMap.image, hsame mentioned hbears]
    · simp [ClassMap.image, newClass?_eq_none hfirst hfirst.toNamed hbears]
  case members =>
    intro kind owner name desc found hfound
    obtain ⟨d, m, hm, -⟩ := (newMember?_iff hfirst hsecond.toNamed).1 hfound
    have hboth := hchained.members kind owner name desc
    rw [hfound, Option.bind_some, (hchained.declared kind owner name desc d m hm).2, hm.name]
      at hboth
    exact hboth

/-- Hop by hop is the same as at once, and there and back is where one was, between namespaces whose
names tell the classes and members of a tree apart. -/
theorem ofTree_chained {a b c : String} (ha : a ∈ t.namespaces) (hb : b ∈ t.namespaces)
    (hc : c ∈ t.namespaces) (hfirst : t.Apart (t.namespaces.idxOf a))
    (hsecond : t.Apart (t.namespaces.idxOf b)) (hthird : t.Named (t.namespaces.idxOf c)) :
    ∃ ab bc ac, ofTree t a b = .ok ab ∧ ofTree t b c = .ok bc ∧ ofTree t a c = .ok ac ∧
      Chained t (t.namespaces.idxOf a) (t.namespaces.idxOf b) (t.namespaces.idxOf c) ab bc ac ∧
      (c = a → Undoes t (t.namespaces.idxOf a) (t.namespaces.idxOf b) ab bc ∧
        Undoes t (t.namespaces.idxOf b) (t.namespaces.idxOf a) bc ab) := by
  simp only [ofTree_eq, ha, hb, hc, if_true, Except.ok.injEq]
  refine ⟨_, _, _, rfl, rfl, rfl, chained_ofColumns hfirst hsecond hthird, ?_⟩
  rintro rfl
  exact ⟨undoes_ofColumns hfirst hsecond, undoes_ofColumns hsecond hfirst⟩

namespace Sample

/-- Two classes; the first has two methods of one name, and a field without a descriptor. -/
def chainTree : MappingTree where
  namespaces := ["official", "searge", "mcp"]
  classes := ⟨[
    ("a", {
      names := [some "a", some "A", some "Alpha"]
      fields := [{ names := [some "f", some "fa", some "first"] }]
      methods := [
        { names := [some "m", some "ma", some "get"], desc := some "(Lb;)La;" },
        { names := [some "m", some "ma", some "put"], desc := some "(Lb;Ljava/util/List;)V" }] }),
    ("b", { names := [some "b", some "B", some "Beta"] })], by decide⟩

theorem mem_chainTree {c : ClassMapping} {kind : MemberKind} {m : MemberMapping}
    (hc : c ∈ chainTree.classes.values) (hm : m ∈ c.members kind) :
    m = ⟨[some "f", some "fa", some "first"], none⟩ ∨
      m = ⟨[some "m", some "ma", some "get"], some "(Lb;)La;"⟩ ∨
        m = ⟨[some "m", some "ma", some "put"], some "(Lb;Ljava/util/List;)V"⟩ := by
  have hmembers : ∀ c ∈ chainTree.classes.values,
      (∀ m ∈ c.members .field, m = ⟨[some "f", some "fa", some "first"], none⟩) ∧
      ∀ m ∈ c.members .method, m = ⟨[some "m", some "ma", some "get"], some "(Lb;)La;"⟩ ∨
        m = ⟨[some "m", some "ma", some "put"], some "(Lb;Ljava/util/List;)V"⟩ := by
    decide
  cases kind with
  | field => exact .inl ((hmembers c hc).1 m hm)
  | method => exact .inr ((hmembers c hc).2 m hm)

theorem apart_chainTree {column : Nat} (h : column = 1 ∨ column = 2) : chainTree.Apart column := by
  have hmentioned : ∀ desc ∈ ["(Lb;)La;", "(Lb;Ljava/util/List;)V"],
      ∀ mentioned ∈ Descriptor.classNames desc, chainTree.BearsName column mentioned →
        ∃ c ∈ chainTree.classes.values, c.names.source = mentioned := by
    rcases h with rfl | rfl <;> decide
  constructor
  case toNamed =>
    refine ⟨by rcases h with rfl | rfl <;> decide, fun c hc kind m hm => ?_⟩
    rcases mem_chainTree hc hm with rfl | rfl | rfl <;> rcases h with rfl | rfl <;> rfl
  case distinct => rcases h with rfl | rfl <;> decide
  case unbroken =>
    have hfree : ∀ c ∈ chainTree.classes.values, ∀ name ∈ c.names.get? column,
        ';' ∉ name.toList := by
      rcases h with rfl | rfl <;> decide
    rintro name ⟨c, hc, hname⟩
    exact hfree c hc name hname
  case overloads =>
    intro c hc kind
    revert c
    rcases h with rfl | rfl <;> cases kind <;> decide
  case mentions =>
    intro c hc kind m hm desc hdesc
    rcases mem_chainTree hc hm with rfl | rfl | rfl <;> cases hdesc
    · exact hmentioned _ (by decide)
    · exact hmentioned _ (by decide)

end Sample

open Sample in
theorem ofTree_chained_overloads :
    chainTree.Apart 1 ∧ chainTree.Apart 2 ∧
    ∃ ab ba aa, ofTree chainTree "searge" "mcp" = .ok ab ∧
      ofTree chainTree "mcp" "searge" = .ok ba ∧ ofTree chainTree "searge" "searge" = .ok aa ∧
      Chained chainTree 1 2 1 ab ba aa ∧ Undoes chainTree 1 2 ab ba ∧ Undoes chainTree 2 1 ba ab ∧
      ab.newMethod? "A" "ma" "(LB;)LA;" = some "get" ∧
      ba.newMethod? (ClassMap.image ab.newClass? "A") "get" (ab.newDescriptor "(LB;)LA;") =
        some "ma" := by
  have hfirst := apart_chainTree (.inl rfl)
  have hsecond := apart_chainTree (.inr rfl)
  obtain ⟨ab, ba, aa, hab, hba, haa, hchained, hundoes⟩ :=
    ofTree_chained (t := chainTree) (a := "searge") (b := "mcp") (c := "searge") (by decide)
      (by decide) (by decide) hfirst hsecond hfirst.toNamed
  obtain ⟨hback, hforth⟩ := hundoes rfl
  have hget : chainTree.Declares 1 .method "A" "ma" "(LB;)LA;" _
      ⟨[some "m", some "ma", some "get"], some "(Lb;)La;"⟩ :=
    ⟨List.mem_cons_self, rfl, List.mem_cons_self, rfl, by decide⟩
  have hfound := (hchained.declared .method _ _ _ _ _ hget).1
  exact ⟨hfirst, hsecond, ab, ba, aa, hab, hba, haa, hchained, hback, hforth, hfound,
    hback.members .method _ _ _ _ hfound⟩

end Dictionary

end JarRemap
