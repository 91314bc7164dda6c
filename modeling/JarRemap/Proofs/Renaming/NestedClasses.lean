import JarRemap.Proofs.Renaming.Untouched

/-!
# Nested classes

A class lists the nested classes that it knows, each by its name, the class around it, its simple
name and its flags. The simple name follows the new name of the class: it is what stands there
behind all classes around it. A class that is nested in a method has a number before its simple
name, and what stands behind the classes around it begins with the number.
-/

namespace JarRemap

namespace Attributes

/-! ### Listings -/

/-- A writing that can be split off any bytes that begin with it. -/
def SplitsOff {ι : Type} (toBytes : ι → List UInt8) : Prop :=
  ∀ x y rest rest', toBytes x ++ rest = toBytes y ++ rest' → x = y ∧ rest = rest'

/-- A count, and so many items. -/
def listing {ι : Type} (toBytes : ι → List UInt8) (items : List ι) : List UInt8 :=
  bytesOfNat 2 items.length ++ items.flatMap toBytes

/-- An attribute: the index of its name, and its contents, which are short enough to be counted. -/
structure Attribute where
  name : UInt16
  body : List UInt8
  small : body.length < 256 ^ 4

def Attribute.toBytes (a : Attribute) : List UInt8 :=
  bytesOfNat 2 a.name.toNat ++ bytesOfNat 4 a.body.length ++ a.body

/-- What a class says about a nested class. -/
structure NestedClass where
  inner : UInt16
  outer : UInt16
  simple : UInt16
  flags : UInt16
deriving DecidableEq, Repr

def NestedClass.toBytes (e : NestedClass) : List UInt8 :=
  [e.inner, e.outer, e.simple, e.flags].flatMap fun index => bytesOfNat 2 index.toNat

section Listings

variable {ι : Type} {toBytes : ι → List UInt8}

theorem bytesOfNat_inj {count m n : Nat} (hm : m < 256 ^ count) (hn : n < 256 ^ count)
    (h : bytesOfNat count m = bytesOfNat count n) : m = n := by
  rw [← natOfBytes_bytesOfNat hm, h, natOfBytes_bytesOfNat hn]

theorem splitsOff_index : SplitsOff fun index : UInt16 => bytesOfNat 2 index.toNat := by
  intro x y rest rest' h
  obtain ⟨hindex, hrest⟩ := List.append_inj h (by simp)
  exact ⟨UInt16.toNat_inj.1 (bytesOfNat_inj x.toNat_lt y.toNat_lt hindex), hrest⟩

theorem splitsOff_attribute : SplitsOff Attribute.toBytes := by
  rintro ⟨name, body, small⟩ ⟨name', body', small'⟩ rest rest' h
  simp only [Attribute.toBytes, List.append_assoc] at h
  obtain ⟨rfl, hbehind⟩ := splitsOff_index _ _ _ _ h
  obtain ⟨hlength, hbody⟩ := List.append_inj hbehind (by simp)
  obtain ⟨rfl, rfl⟩ := List.append_inj hbody (bytesOfNat_inj small small' hlength)
  exact ⟨rfl, rfl⟩

theorem splitsOff_nestedClass : SplitsOff NestedClass.toBytes := by
  rintro ⟨inner, outer, simple, flags⟩ ⟨inner', outer', simple', flags'⟩ rest rest' h
  simp only [NestedClass.toBytes, List.flatMap_cons, List.flatMap_nil, List.append_nil,
    List.append_assoc] at h
  obtain ⟨rfl, houter⟩ := splitsOff_index _ _ _ _ h
  obtain ⟨rfl, hsimple⟩ := splitsOff_index _ _ _ _ houter
  obtain ⟨rfl, hflags⟩ := splitsOff_index _ _ _ _ hsimple
  obtain ⟨rfl, hrest⟩ := splitsOff_index _ _ _ _ hflags
  exact ⟨rfl, hrest⟩

/-- Items are listed in one way. -/
theorem listing_append_inj (hitem : SplitsOff toBytes) {items items' : List ι}
    {rest rest' : List UInt8} (hcount : items.length < 256 ^ 2) (hcount' : items'.length < 256 ^ 2)
    (h : listing toBytes items ++ rest = listing toBytes items' ++ rest') :
    items = items' ∧ rest = rest' := by
  rw [listing, listing, List.append_assoc, List.append_assoc] at h
  obtain ⟨hlength, hitems⟩ := List.append_inj h (by simp)
  replace hlength := bytesOfNat_inj hcount hcount' hlength
  clear hcount hcount' h
  induction items generalizing items' with
  | nil =>
    obtain rfl := List.length_eq_zero_iff.1 hlength.symm
    exact ⟨rfl, hitems⟩
  | cons x items ih =>
    cases items' with
    | nil => cases hlength
    | cons y items' =>
      simp only [List.flatMap_cons, List.append_assoc] at hitems
      obtain ⟨rfl, hothers⟩ := hitem _ _ _ _ hitems
      obtain ⟨rfl, hrest⟩ := ih hothers (Nat.succ.inj hlength)
      exact ⟨rfl, hrest⟩

theorem NestedClass.length_listing (entries : List NestedClass) :
    (listing NestedClass.toBytes entries).length = 2 + 8 * entries.length := by
  induction entries with
  | nil => rfl
  | cons e entries ih =>
    simp only [listing, List.length_append, List.flatMap_cons, length_bytesOfNat] at ih ⊢
    simp only [NestedClass.toBytes, List.flatMap_cons, List.flatMap_nil, List.length_append,
      length_bytesOfNat, List.length_nil, List.length_cons] at ih ⊢
    omega

end Listings

/-! ### Entries -/

/-- A computation that takes something and writes something in its place, and how both are
related in the constants that are there then. -/
def Recasts {ι : Type} (start : Constants) (c : Copy Unit) (toBytes : ι → List UInt8)
    (R : Constants → ι → ι → Prop) : Prop :=
  ∀ s a s', s.pool.Sound → start.Keeps Constant.isPart s.pool.constants → c s = (.ok a, s') →
    ∃ x y, Step s s' (toBytes x) (toBytes y) ∧ R s'.pool.constants x y

/-- A nested class that is listed in place of one: it has the same simple name if its name stays or
it has none, else what stands behind the classes around it in its new name. -/
structure EntryRenamed (resolver : Resolver) (start cs : Constants) (e e' : NestedClass) :
    Prop where
  inner : e'.inner = e.inner
  outer : e'.outer = e.outer
  flags : e'.flags = e.flags
  anonymous : e.simple = 0 → e'.simple = 0
  kept : ∀ name, start.className? e.inner = some name → resolver.newClass? name = none →
    e'.simple = e.simple ∧
      ∀ text, start.utf8? e.simple = some text → cs.utf8? e'.simple = some text
  renamed : ∀ name new text, start.className? e.inner = some name →
    resolver.newClass? name = some new → start.utf8? e.simple = some text →
      cs.utf8? e'.simple = some (simpleName new)

/-- An attribute in the place of one. If it lists nested classes, so does the other one. -/
structure AttributeRenamed (resolver : Resolver) (start cs : Constants) (a a' : Attribute) :
    Prop where
  name : a'.name = a.name
  length : a'.body.length = a.body.length
  entries : start.utf8? a.name = some "InnerClasses" → ∀ entries rest,
    entries.length < 256 ^ 2 → a.body = listing NestedClass.toBytes entries ++ rest →
      ∃ entries', a'.body = listing NestedClass.toBytes entries' ++ rest ∧
        List.Forall₂ (EntryRenamed resolver start cs) entries entries'

section Recasts

variable {ι : Type} {start : Constants} {toBytes : ι → List UInt8} {item : Copy Unit}
  {R : Constants → ι → ι → Prop} {resolver : Resolver} {owner : String}

/-- Items are recast one after the other. -/
theorem recasts_times (h : Recasts start item toBytes R)
    (hlasts : ∀ {cs cs' x y}, R cs x y → cs.Keeps Constant.isShared cs' → R cs' x y) (n : Nat) :
    Recasts start (times n item) (List.flatMap toBytes)
      fun cs items items' => items.length = n ∧ List.Forall₂ (R cs) items items' := by
  induction n with
  | zero =>
    intro s a s' hsound _ hrun
    cases hrun
    exact ⟨[], [], .refl hsound, rfl, .nil⟩
  | succ n ih =>
    intro s a s' hsound hstart hrun
    obtain ⟨b, next, hfirst, hrun⟩ := bind_eq_ok hrun
    obtain ⟨x, y, hstep, hR⟩ := h s b next hsound hstart hfirst
    obtain ⟨items, items', hrest, hlength, hitems⟩ :=
      ih next a s' hstep.sound (hstart.trans (hstep.grown.keeps _)) hrun
    refine ⟨x :: items, y :: items', ?_, congrArg Nat.succ hlength, .cons ?_ hitems⟩
    · rw [List.flatMap_cons, List.flatMap_cons]
      exact hstep.trans hrest
    · exact hlasts hR (hrest.grown.keeps _)

theorem recasts_counted (h : Recasts start item toBytes R)
    (hlasts : ∀ {cs cs' x y}, R cs x y → cs.Keeps Constant.isShared cs' → R cs' x y) :
    Recasts start (counted 2 item) (listing toBytes)
      fun cs items items' => items.length < 256 ^ 2 ∧ List.Forall₂ (R cs) items items' := by
  intro s a s' hsound hstart hrun
  obtain ⟨n, next, hfirst, hrun⟩ := bind_eq_ok hrun
  obtain ⟨_, count, hcount, rfl, htwo, rfl⟩ := copies_number 2 s n next hsound hfirst
  obtain ⟨items, items', hrest, hlength, hitems⟩ :=
    recasts_times h hlasts _ next a s' hcount.sound (hstart.trans (hcount.grown.keeps _)) hrun
  have hwritten : count = bytesOfNat 2 items.length := by
    rw [hlength, ← htwo, bytesOfNat_natOfBytes]
  refine ⟨items, items', ?_, ?_, hitems⟩
  · rw [listing, listing, ← hitems.length_eq, ← hwritten]
    exact hcount.trans hrest
  · rw [hlength, ← htwo]
    exact natOfBytes_lt count

theorem EntryRenamed.mono {cs cs' : Constants} {e e' : NestedClass}
    (h : EntryRenamed resolver start cs e e') (hkeeps : cs.Keeps Constant.isShared cs') :
    EntryRenamed resolver start cs' e e' :=
  { h with
    kept := fun name hname hnone =>
      ⟨(h.kept name hname hnone).1, fun text htext =>
        hkeeps.utf8? ((h.kept name hname hnone).2 text htext)⟩
    renamed := fun name new text hname hnew htext =>
      hkeeps.utf8? (h.renamed name new text hname hnew htext) }

theorem AttributeRenamed.mono {cs cs' : Constants} {a a' : Attribute}
    (h : AttributeRenamed resolver start cs a a') (hkeeps : cs.Keeps Constant.isShared cs') :
    AttributeRenamed resolver start cs' a a' := by
  refine ⟨h.name, h.length, fun hname entries rest hcount hbody => ?_⟩
  obtain ⟨entries', hbody', hentries⟩ := h.entries hname entries rest hcount hbody
  exact ⟨entries', hbody', hentries.imp fun _ _ he => he.mono hkeeps⟩

/-- The simple name that is written for a nested class. -/
theorem recasts_simpleName (outer : UInt16) {s s' : State} {inner simple flags : UInt16} {a : Unit}
    (hzero : start.at? 0 = some .unusable) (hsound : s.pool.Sound)
    (hstart : start.Keeps Constant.isPart s.pool.constants)
    (hrun : (do
      match (s.pool.constants.className? inner).bind resolver.newClass? with
      | some renamed =>
          if simple = 0 then emitIndex simple
          else emitIndex (← renamedIndex simple fun _ => some (simpleName renamed))
      | none => emitIndex simple
      emitIndex flags) s = (.ok a, s')) :
    ∃ simple' s₁, Step s s₁ [] (bytesOfNat 2 simple'.toNat) ∧ emitIndex flags s₁ = (.ok a, s') ∧
      EntryRenamed resolver start s₁.pool.constants ⟨inner, outer, simple, flags⟩
        ⟨inner, outer, simple', flags⟩ := by
  have hshared := hstart.mono fun _ => Constant.isPart_of_isShared
  cases hrenamed : (s.pool.constants.className? inner).bind resolver.newClass? with
  | none =>
    simp only [hrenamed] at hrun
    obtain ⟨_, s₁, hemit, hrun⟩ := bind_eq_ok hrun
    have hstep := step_emitIndex hsound hemit
    refine ⟨simple, s₁, hstep, hrun, rfl, rfl, rfl, id, fun _ _ _ => ⟨rfl, ?_⟩, ?_⟩
    · intro text htext
      exact (hshared.trans (hstep.grown.keeps _)).utf8? htext
    · intro name new text hname hnew _
      rw [hstart.className? hname, Option.bind_some, hnew] at hrenamed
      cases hrenamed
  | some renamed =>
    obtain ⟨found, hfound, hnew⟩ := Option.bind_eq_some_iff.1 hrenamed
    have hsame : ∀ {name}, start.className? inner = some name →
        resolver.newClass? name = some renamed := by
      intro name hname
      cases (hstart.className? hname).symm.trans hfound
      exact hnew
    simp only [hrenamed] at hrun
    by_cases hsimple : simple = 0
    · rw [if_pos hsimple] at hrun
      obtain ⟨_, s₁, hemit, hrun⟩ := bind_eq_ok hrun
      refine ⟨simple, s₁, step_emitIndex hsound hemit, hrun, rfl, rfl, rfl, id, ?_, ?_⟩
      · intro name hname hnone
        cases hnone.symm.trans (hsame hname)
      · intro name new text _ _ htext
        rw [hsimple, Constants.utf8?, hzero] at htext
        cases htext
    · rw [if_neg hsimple] at hrun
      obtain ⟨simple', s₁, hindex, hrun⟩ := bind_eq_ok hrun
      obtain ⟨_, s₂, hemit, hrun⟩ := bind_eq_ok hrun
      obtain ⟨hstep, htext', -⟩ := renamedIndex_eq_ok hsound hindex
      obtain ⟨hstep, hpool⟩ := step_emitIndex_pool hstep hemit
      refine ⟨simple', s₂, hstep, hrun, rfl, rfl, rfl, fun h => absurd h hsimple, ?_, ?_⟩
      · intro name hname hnone
        cases hnone.symm.trans (hsame hname)
      · intro name new text hname hnew htext
        cases hnew.symm.trans (hsame hname)
        rw [hpool]
        exact htext' text (hshared.utf8? htext)

/-- A nested class. -/
theorem recasts_innerClass (hzero : start.at? 0 = some .unusable) :
    Recasts start (innerClass resolver) NestedClass.toBytes (EntryRenamed resolver start) := by
  intro s a s' hsound hstart hrun
  obtain ⟨l, s₁, hindexes, hrun⟩ := bind_eq_ok hrun
  obtain ⟨htake, hpool, hlength⟩ := rewrites_indexes ⟨resolver, "", start⟩ True hsound hindexes
  match l, hlength with
  | [inner, outer, simple, flags], _ =>
    obtain ⟨_, s₂, hemit, hrun⟩ := bind_eq_ok hrun
    have hinner := step_emitIndex htake.step.sound hemit
    obtain ⟨_, s₃, hemit, hrun⟩ := bind_eq_ok hrun
    have houter := step_emitIndex hinner.sound hemit
    have hfirst := (htake.step.trans hinner).trans houter
    obtain ⟨_, _, hget, hrun⟩ := bind_eq_ok hrun
    cases hget
    obtain ⟨simple', s₄, hsimple, hemit, hentry⟩ := recasts_simpleName outer hzero
      hfirst.sound (hstart.trans (hfirst.grown.keeps _)) hrun
    have hflags := step_emitIndex hsimple.sound hemit
    refine ⟨⟨inner, outer, simple, flags⟩, ⟨inner, outer, simple', flags⟩, ?_, ?_⟩
    · simpa [NestedClass.toBytes, written] using (hfirst.trans hsimple).trans hflags
    · rw [pool_emit hemit]
      exact hentry

/-- What is known of an attribute is as long as before. If it lists nested classes, it is a list of
the same classes. -/
theorem known_of_contents {contents : String → Copy Unit} {s s' : State} {a : Unit} {index : UInt16}
    (hcontents : ∀ name, Balanced (contents name))
    (hnested : Recasts start (contents "InnerClasses") (listing NestedClass.toBytes)
      fun cs entries entries' => entries.length < 256 ^ 2 ∧
        List.Forall₂ (EntryRenamed resolver start cs) entries entries')
    (hsound : s.pool.Sound) (hstart : start.Keeps Constant.isPart s.pool.constants)
    (hrun : contents ((s.pool.constants.utf8? index).getD "") s = (.ok a, s')) :
    ∃ known known', Step s s' known known' ∧ known.length = known'.length ∧
      (start.utf8? index = some "InnerClasses" → ∃ entries entries',
        known = listing NestedClass.toBytes entries ∧
          known' = listing NestedClass.toBytes entries' ∧ entries.length < 256 ^ 2 ∧
            List.Forall₂ (EntryRenamed resolver start s'.pool.constants) entries entries') := by
  by_cases hname : start.utf8? index = some "InnerClasses"
  · have hfound := (hstart.mono fun _ => Constant.isPart_of_isShared).utf8? hname
    rw [hfound] at hrun
    obtain ⟨entries, entries', hstep, hcount, hentries⟩ := hnested s a s' hsound hstart hrun
    have hsame := hentries.length_eq
    refine ⟨_, _, hstep, ?_, fun _ => ⟨entries, entries', rfl, rfl, hcount, hentries⟩⟩
    rw [NestedClass.length_listing, NestedClass.length_listing, hsame]
  · obtain ⟨known, known', hstep, hsame, -⟩ := hcontents _ s a s' hsound hrun
    exact ⟨known, known', hstep, by omega, fun h => absurd h hname⟩

/-- An attribute, if the contents of attributes are balanced and nested classes are recast. -/
theorem recasts_attributeEntry {contents : String → Copy Unit}
    (hcontents : ∀ name, Balanced (contents name))
    (hnested : Recasts start (contents "InnerClasses") (listing NestedClass.toBytes)
      fun cs entries entries' => entries.length < 256 ^ 2 ∧
        List.Forall₂ (EntryRenamed resolver start cs) entries entries') :
    Recasts start (attributeEntry contents) Attribute.toBytes
      (AttributeRenamed resolver start) := by
  intro s a s' hsound hstart hrun
  obtain ⟨index, length, s₁, s₂, s₃, h⟩ := attributeEntry_eq_ok hsound hrun
  have hrun := h.known
  rw [← h.pool₂] at hrun
  obtain ⟨known, known', hknown, hsame, hentries⟩ := known_of_contents hcontents hnested
    h.measured.sound (h.pool₂ ▸ hstart) hrun
  obtain ⟨rest, hbody, hrest, -⟩ := h.unknown hknown
  have hbody' : (known' ++ rest).length = natOfBytes length := by
    rw [← hbody, List.length_append, List.length_append, hsame]
  have hsmall : natOfBytes length < 256 ^ 4 := h.four ▸ natOfBytes_lt length
  refine ⟨⟨(natOfBytes index).toUInt16, known ++ rest, hbody ▸ hsmall⟩,
    ⟨(natOfBytes index).toUInt16, known' ++ rest, hbody' ▸ hsmall⟩, ?_, ?_⟩
  · have hall := ((h.named.trans h.measured).trans hknown).trans hrest
    have hwritten : bytesOfNat 4 (natOfBytes length) = length := by
      rw [← h.four, bytesOfNat_natOfBytes]
    simpa only [Attribute.toBytes, hbody, hbody', hwritten, bytesOfNat_index h.two,
      List.append_assoc] using hall
  · refine ⟨rfl, hbody'.trans hbody.symm, fun hname entries rest₀ hcount₀ hlisted => ?_⟩
    obtain ⟨entries₁, entries', rfl, rfl, hcount₁, hrenamed⟩ := hentries hname
    obtain ⟨rfl, rfl⟩ :=
      listing_append_inj splitsOff_nestedClass hcount₁ hcount₀ hlisted
    exact ⟨entries', rfl, hrenamed.imp fun _ _ he => he.mono (hrest.grown.keeps _)⟩

/-- Every attribute of a table is renamed in its place. -/
theorem renamed_attributes (hzero : start.at? 0 = some .unusable) {p p' : Pool}
    {table' : List UInt8} {attributes : List Attribute} (hsound : p.Sound)
    (hstart : start.Keeps Constant.isPart p.constants) (hcount : attributes.length < 256 ^ 2)
    (hrun : rename resolver owner (listing Attribute.toBytes attributes) p = (.ok table', p')) :
    ∃ attributes', table' = listing Attribute.toBytes attributes' ∧
      List.Forall₂ (AttributeRenamed resolver start p'.constants) attributes attributes' := by
  unfold rename at hrun
  -- The count of a table leaves room for the contents of its attributes.
  obtain ⟨depth, hdepth⟩ : ∃ depth, (listing Attribute.toBytes attributes).length = depth + 1 :=
    ⟨_, by rw [listing, List.length_append, length_bytesOfNat, Nat.add_right_comm]⟩
  rw [hdepth, table] at hrun
  have hnested : Recasts start (contents resolver owner (depth + 1) "InnerClasses")
      (listing NestedClass.toBytes) fun cs entries entries' => entries.length < 256 ^ 2 ∧
        List.Forall₂ (EntryRenamed resolver start cs) entries entries' :=
    recasts_counted (recasts_innerClass hzero) EntryRenamed.mono
  have hattributes := recasts_counted
    (recasts_attributeEntry (balanced_table resolver owner (depth + 1)).2 hnested)
    AttributeRenamed.mono
  rcases hcopied : counted 2 (attributeEntry (contents resolver owner (depth + 1)))
    { pool := p, cursor := ⟨listing Attribute.toBytes attributes, 0⟩ } with ⟨r, s'⟩
  rw [hcopied] at hrun
  cases r with
  | error e => cases hrun
  | ok a =>
    cases hrun
    obtain ⟨read, attributes', hstep, hread, hrenamed⟩ := hattributes _ a s' hsound hstart hcopied
    have hrest : listing Attribute.toBytes attributes ++ [] =
        listing Attribute.toBytes read ++ s'.cursor.rest := by
      rw [List.append_nil]
      exact hstep.rest
    obtain ⟨rfl, -⟩ := listing_append_inj splitsOff_attribute hcount hread hrest
    refine ⟨attributes', ?_, hrenamed⟩
    rw [hstep.copied, List.append_nil, List.reverse_reverse]

end Recasts

/-! ### Simple names -/

/-- The name of a nested class: the class around it, the number of a class that is nested in a
method, and the simple name. -/
structure NestedName where
  outer : List Char
  digits : List Char
  simple : List Char
  number : ∀ c ∈ digits, c.isDigit = true
  nonempty : simple ≠ []
  plain : ∀ c ∈ simple, c ≠ '$' ∧ c ≠ '/'
  start : ∀ c ∈ simple.head?, c.isDigit = false

def NestedName.text (n : NestedName) : String :=
  String.ofList (n.outer ++ '$' :: (n.digits ++ n.simple))

theorem behindLast_append_cons {p : Char → Bool} {c : Char} {s t : List Char} (hc : p c = true)
    (ht : ∀ x ∈ t, p x = false) : Text.behindLast p (s ++ c :: t) = t := by
  have hsplit : (s ++ c :: t).reverse = t.reverse ++ c :: s.reverse := by simp
  have hwhole : ∀ x ∈ t.reverse, (!p x) = true := fun x hx => by simp [ht x (by simpa using hx)]
  rw [Text.behindLast, hsplit, List.takeWhile_append_of_pos hwhole,
    List.takeWhile_cons_of_neg (by simp [hc]), List.append_nil, List.reverse_reverse]

/-- The number stays before the simple name. -/
theorem simpleName_text (n : NestedName) :
    simpleName n.text = String.ofList (n.digits ++ n.simple) := by
  rw [simpleName, NestedName.text, String.toList_ofList, behindLast_append_cons (by simp)]
  intro c hc
  rcases List.mem_append.1 hc with hc | hc
  · have hdigit := n.number c hc
    have hdollar : c ≠ '$' := by rintro rfl; cases hdigit
    have hslash : c ≠ '/' := by rintro rfl; cases hdigit
    simp [hdollar, hslash]
  · simp [n.plain c hc]

theorem simpleName_text_eq_iff (n : NestedName) :
    simpleName n.text = String.ofList n.simple ↔ n.digits = [] := by
  rw [simpleName_text, String.ofList_inj, List.append_left_eq_self]

end Attributes

namespace ClassRenaming

open Attributes (Attribute AttributeRenamed NestedClass NestedName listing simpleName)

variable {resolver : Resolver}

/-- No later step moves what the attributes of a class name. -/
theorem Walk.keeps_table {c c' : ClassFile} {lambdas : List (Option String)}
    {fields₁ methods₁ : List Member} {p p₁ p₂ p₃ p₄ p₅ p₆ p' : Pool}
    (h : Walk resolver c c' lambdas fields₁ methods₁ p p₁ p₂ p₃ p₄ p₅ p₆ p') (hsound : p₂.Sound) :
    p₂.constants.Keeps Constant.isShared p'.constants := by
  obtain ⟨hsound₃, hextends₃, -⟩ := interns_renameAttributes c.name c.fields _ _ _ hsound
    h.fieldTables
  obtain ⟨hsound₄, hextends₄, -⟩ := interns_renameAttributes c.name c.methods _ _ _ hsound₃
    h.methodTables
  have hclasses := (changes_renameClassIn resolver p₄.constants).pass_mapConstants _ 1 hsound₄
    (.refl _ _) h.classes
  obtain ⟨hsound₆, hextends₆, -⟩ := renameMembers_forall₂ hclasses.sound h.fields
  obtain ⟨-, hextends', -⟩ := renameMembers_forall₂ hsound₆ h.methods
  exact (((hextends₃.trans hextends₄).keeps _).trans hclasses.keeps).trans
    ((hextends₆.trans hextends').keeps _)

theorem renamed_attributes_of_renamed {c c' : ClassFile} (hc : c.WellFormed)
    (h : renamed resolver c = .ok c') {attributes : List Attribute}
    (hcount : attributes.length < 256 ^ 2)
    (hattributes : c.attributes = listing Attribute.toBytes attributes) :
    ∃ attributes', c'.attributes = listing Attribute.toBytes attributes' ∧
      List.Forall₂ (AttributeRenamed resolver c.constants c'.constants) attributes attributes' := by
  obtain ⟨hsound, hp⟩ := Pool.sound_ofConstants hc.size
  obtain ⟨rest, hrest, -⟩ := hc.constants
  have hzero : c.constants.at? 0 = some .unusable := by
    rw [Constants.at?, ← Array.getElem?_toList, hrest]
    rfl
  change (renameAll resolver c (Pool.ofConstants c.constants)).1 = .ok c' at h
  rcases hrun : renameAll resolver c (Pool.ofConstants c.constants) with ⟨r, p'⟩
  obtain rfl : r = .ok c' := by rwa [hrun] at h
  obtain ⟨lambdas, _, _, _, _, _, _, _, _, hwalk⟩ := walk_of_renameAll hrun
  have hreferences := (changes_renameMemberIn resolver lambdas _).pass_mapConstants _ 1 hsound
    (.refl _ _) hwalk.references
  have htable := hwalk.table
  rw [hattributes] at htable
  obtain ⟨attributes', htable', hrenamed⟩ := Attributes.renamed_attributes hzero hreferences.sound
    (hp ▸ hreferences.keeps) hcount htable
  obtain ⟨hsound₂, -, -⟩ :=
    Attributes.interns_rename resolver c.name _ _ _ _ hreferences.sound htable
  have hconstants : c'.constants = _ := congrArg ClassFile.constants hwalk.rest
  refine ⟨attributes', htable', hrenamed.imp fun _ _ ha => ?_⟩
  rw [hconstants]
  exact ha.mono (hwalk.keeps_table hsound₂)

/-- Every nested class that a renamed class lists is listed in the same place, under what stands
behind the classes around it in its new name. This is the simple name of a class that is not nested
in a method, but not that of any other. -/
theorem nested_classes_are_named {bytes out : List UInt8}
    (h : renamedBytes resolver bytes = .ok out) :
    (∃ c c', Rewriting resolver bytes out c c' ∧ ∀ attributes : List Attribute,
      attributes.length < 256 ^ 2 → c.attributes = listing Attribute.toBytes attributes →
        ∃ attributes', c'.attributes = listing Attribute.toBytes attributes' ∧
          List.Forall₂ (AttributeRenamed resolver c.constants c'.constants) attributes
            attributes') ∧
    ∀ n : NestedName, simpleName n.text = String.ofList (n.digits ++ n.simple) ∧
      (simpleName n.text = String.ofList n.simple ↔ n.digits = []) := by
  refine ⟨?_, fun n => ⟨Attributes.simpleName_text n, Attributes.simpleName_text_eq_iff n⟩⟩
  obtain ⟨c, c', hrewriting⟩ := renamedBytes_eq_ok.1 h
  have hformed := ClassFile.wellFormed_of_parse hrewriting.read
  exact ⟨c, c', hrewriting, fun _ hcount hattributes =>
    renamed_attributes_of_renamed hformed hrewriting.renamed hcount hattributes⟩

/-- The first class in a method of another one, which lists itself. -/
def localClass : ClassFile :=
  { bareClass with
    constants := #[.unusable, .utf8 "a$1b", .classRef 1, .utf8 "b", .utf8 "InnerClasses"]
    attributes := listing Attribute.toBytes
      [⟨4, listing NestedClass.toBytes [⟨2, 0, 3, 0⟩], by decide⟩] }

/-- That class under a new name, with a number in its simple name. -/
def localClassRenamed : ClassFile :=
  { localClass with
    constants := #[.unusable, .utf8 "a$1b", .classRef 6, .utf8 "b", .utf8 "InnerClasses",
      .utf8 "1d", .utf8 "c$1d"]
    attributes := listing Attribute.toBytes
      [⟨4, listing NestedClass.toBytes [⟨2, 0, 5, 0⟩], by decide⟩] }

/-- A resolver that knows the class in the method. -/
def localResolver : Resolver where
  dictionary :=
    { source := ⟨"official", false⟩, target := ⟨"intermediary", false⟩,
      classes := ({} : OrderedMap String String).insert "a$1b" "c$1d" }

section Local

/-- The pool of that class. -/
def localPool : Pool where
  constants := localClass.constants
  texts := ((({} : Std.HashMap String UInt16).insertIfNew "a$1b" 1).insertIfNew "b" 3).insertIfNew
    "InnerClasses" 4

/-- The pool with the simple name. -/
def localPoolNamed : Pool where
  constants := localPool.constants.push (.utf8 "1d")
  texts := localPool.texts.insertIfNew "1d" 5

theorem internText_localPool : Pool.internText "1d" localPool = (.ok 5, localPoolNamed) := by
  have hnew : localPool.texts["1d"]? = none := by simp [localPool]
  rw [Pool.internText, hnew]
  rfl

theorem internText_localPoolNamed :
    Pool.internText "c$1d" localPoolNamed =
      (.ok 6, ⟨localPoolNamed.constants.push (.utf8 "c$1d"),
        localPoolNamed.texts.insertIfNew "c$1d" 6, {}⟩) := by
  have hnew : localPoolNamed.texts["c$1d"]? = none := by simp [localPoolNamed, localPool]
  rw [Pool.internText, hnew]
  rfl

/-- The entry of the class gets the index of the simple name, which is appended. -/
theorem innerClass_localPool (offset : Nat) (copied : List UInt8) :
    Attributes.innerClass localResolver ⟨localPool, ⟨[0, 2, 0, 0, 0, 3, 0, 0], offset⟩, copied⟩ =
      (.ok (), ⟨localPoolNamed, ⟨[], offset + 8⟩, [0, 0, 5, 0, 0, 0, 2, 0] ++ copied⟩) := by
  have hindex : Attributes.renamedIndex 3 (fun _ => some (simpleName "c$1d"))
      ⟨localPool, ⟨[], offset + 8⟩, [0, 0, 2, 0] ++ copied⟩ =
        (.ok 5, ⟨localPoolNamed, ⟨[], offset + 8⟩, [0, 0, 2, 0] ++ copied⟩) := by
    have htext : localPool.constants.utf8? 3 = some "b" := rfl
    have hname : (some (simpleName "c$1d")).filter (· ≠ "b") = some "1d" := by decide
    refine (bind_of_ok rfl).trans ?_
    dsimp only
    rw [htext]
    dsimp only
    rw [hname]
    simp only [Attributes.withPool, internText_localPool]
  refine (bind_of_ok rfl).trans ?_
  refine (bind_of_ok rfl).trans ?_
  refine (bind_of_ok rfl).trans ?_
  refine (bind_of_ok rfl).trans ?_
  refine (bind_of_ok hindex).trans ?_
  rfl

/-- The bytes of the class's attribute table that are written, last byte first. -/
def localCopied : List UInt8 := [0, 0, 5, 0, 0, 0, 2, 0, 1, 0, 10, 0, 0, 0, 4, 0, 1, 0]

theorem attributeEntry_localPool (owner : String) (depth : Nat) :
    Attributes.attributeEntry (Attributes.contents localResolver owner (depth + 1))
      ⟨localPool, ⟨[0, 4, 0, 0, 0, 10, 0, 1, 0, 2, 0, 0, 0, 3, 0, 0], 2⟩, [1, 0]⟩ =
        (.ok (), ⟨localPoolNamed, ⟨[], 18⟩, localCopied⟩) := by
  have hentries : Attributes.contents localResolver owner (depth + 1) "InnerClasses"
      ⟨localPool, ⟨[0, 1, 0, 2, 0, 0, 0, 3, 0, 0], 8⟩, [10, 0, 0, 0, 4, 0, 1, 0]⟩ =
        (.ok (), ⟨localPoolNamed, ⟨[], 18⟩, localCopied⟩) := by
    refine (bind_of_ok rfl).trans ?_
    exact (bind_of_ok (innerClass_localPool 10 _)).trans rfl
  have hnothing : ∀ count, count = 0 → Attributes.copy count
      ⟨localPoolNamed, ⟨[], 18⟩, localCopied⟩ =
        (.ok (), ⟨localPoolNamed, ⟨[], 18⟩, localCopied⟩) := by
    rintro _ rfl
    rfl
  refine (bind_of_ok rfl).trans ?_
  refine (bind_of_ok rfl).trans ?_
  refine (bind_of_ok rfl).trans ?_
  refine (bind_of_ok rfl).trans ?_
  dsimp only
  rw [if_neg (by decide)]
  refine (bind_of_ok rfl).trans ?_
  refine (bind_of_ok hentries).trans ?_
  refine (bind_of_ok rfl).trans ?_
  dsimp only
  rw [if_neg (by decide)]
  exact hnothing _ (by decide)

theorem rename_localClass : Attributes.rename localResolver localClass.name localClass.attributes
    localPool = (.ok localClassRenamed.attributes, localPoolNamed) := by
  have htable : Attributes.table localResolver localClass.name 19
      ⟨localPool, ⟨localClass.attributes, 0⟩, []⟩ =
        (.ok (), ⟨localPoolNamed, ⟨[], 18⟩, localCopied⟩) := by
    refine (bind_of_ok rfl).trans ?_
    exact (bind_of_ok (attributeEntry_localPool _ 17)).trans rfl
  have hlength : localClass.attributes.length + 1 = 19 := rfl
  unfold Attributes.rename
  rw [hlength, htable]
  rfl

theorem renamed_localClass : renamed localResolver localClass = .ok localClassRenamed := by
  have hlambdas : (liftM (Lambda.implemented localClass) : WithPool (List (Option String)))
      localPool = (.ok [], localPool) := rfl
  have hmembers : mapConstants (renameMemberIn localResolver []) 4 1 localPool =
      (.ok (), localPool) := by
    refine mapConstants_of_fixed ?_
    simp only [localPool, localClass, List.drop_succ_cons, List.drop_zero,
      List.forall_mem_cons, List.not_mem_nil, false_implies, implies_true, and_true]
    exact ⟨rfl, rfl, rfl, rfl⟩
  have hclass : renameClassIn localResolver (.classRef 1) localPoolNamed = (.ok (.classRef 6),
      ⟨localPoolNamed.constants.push (.utf8 "c$1d"),
        localPoolNamed.texts.insertIfNew "c$1d" 6, {}⟩) := by
    refine (bind_of_ok ?_).trans rfl
    exact (bind_of_ok rfl).trans internText_localPoolNamed
  have howners : mapConstants (renameClassIn localResolver) 4 1 localPoolNamed =
      (.ok (), ⟨localClassRenamed.constants, localPoolNamed.texts.insertIfNew "c$1d" 6, {}⟩) := by
    refine (mapConstants_succ (c := .utf8 "a$1b") rfl rfl).trans ?_
    refine (mapConstants_succ (p := localPoolNamed) rfl hclass).trans ?_
    refine (mapConstants_succ (c := .utf8 "b") rfl rfl).trans ?_
    exact (mapConstants_succ (c := .utf8 "InnerClasses") rfl rfl).trans rfl
  have hnone : ∀ p, ([] : List Member).mapM (renameAttributesOf localResolver localClass.name) p =
      (.ok [], p) := fun _ => rfl
  have hpool : Pool.ofConstants localClass.constants = localPool := rfl
  change (renameAll localResolver localClass (Pool.ofConstants localClass.constants)).1 = _
  unfold renameAll
  have hsize : localClass.constants.size - 1 = 4 := rfl
  have hfields : localClass.fields = [] := rfl
  have hmethods : localClass.methods = [] := rfl
  rw [hpool, hsize, hfields, hmethods, bind_of_ok (withPool_of_ok hlambdas),
    bind_of_ok (withPool_of_ok hmembers), bind_of_ok (withPool_of_ok rename_localClass),
    bind_of_ok (withPool_of_ok (hnone _)), bind_of_ok (withPool_of_ok (hnone _)),
    bind_of_ok (withPool_of_ok howners)]
  rfl

theorem rewriting_localClass :
    Rewriting localResolver localClass.toBytes localClassRenamed.toBytes localClass
      localClassRenamed :=
  ⟨by decide +kernel, renamed_localClass, rfl⟩

end Local

/-- The class that lists itself is renamed, and its attribute is renamed in its place. -/
theorem nested_classes_are_named_localClass :
    renamedBytes localResolver localClass.toBytes = .ok localClassRenamed.toBytes ∧
      ∃ attributes', localClassRenamed.attributes = listing Attribute.toBytes attributes' ∧
        List.Forall₂ (AttributeRenamed localResolver localClass.constants
          localClassRenamed.constants)
          [⟨4, listing NestedClass.toBytes [⟨2, 0, 3, 0⟩], by decide⟩] attributes' := by
  have hbytes := renamedBytes_eq_ok.2 ⟨_, _, rewriting_localClass⟩
  obtain ⟨⟨c, c', hsame, hattributes⟩, -⟩ := nested_classes_are_named hbytes
  obtain ⟨rfl, rfl⟩ := rewriting_localClass.unique hsame
  exact ⟨hbytes, hattributes _ (by decide) rfl⟩

/-- The name of that class, which is the first one in a method. -/
def localName : NestedName where
  outer := ['a']
  digits := ['1']
  simple := ['b']
  number := List.forall_mem_singleton.2 rfl
  nonempty := List.cons_ne_nil _ _
  plain := List.forall_mem_singleton.2 ⟨by decide, by decide⟩
  start := by rintro _ ⟨⟩; rfl

/-- Its new name. -/
def localNameRenamed : NestedName where
  outer := ['c']
  digits := ['1']
  simple := ['d']
  number := List.forall_mem_singleton.2 rfl
  nonempty := List.cons_ne_nil _ _
  plain := List.forall_mem_singleton.2 ⟨by decide, by decide⟩
  start := by rintro _ ⟨⟩; rfl

/-- The class in the method gets a simple name that begins with its number. -/
theorem number_stands_in_simple_name :
    Rewriting localResolver localClass.toBytes localClassRenamed.toBytes localClass
        localClassRenamed ∧
      localResolver.newClass? localName.text = some localNameRenamed.text ∧
      localClass.attributes = listing Attribute.toBytes
        [⟨4, listing NestedClass.toBytes [⟨2, 0, 3, 0⟩], by decide⟩] ∧
      localClass.constants.utf8? 4 = some "InnerClasses" ∧
      localClass.constants.className? 2 = some localName.text ∧
      localClass.constants.utf8? 3 = some (String.ofList localName.simple) ∧
      localClassRenamed.attributes = listing Attribute.toBytes
        [⟨4, listing NestedClass.toBytes [⟨2, 0, 5, 0⟩], by decide⟩] ∧
      localClassRenamed.constants.className? 2 = some localNameRenamed.text ∧
      localClassRenamed.constants.utf8? 5 ≠ some (String.ofList localNameRenamed.simple) :=
  ⟨rewriting_localClass, rfl, rfl, rfl, rfl, rfl, rfl, rfl, by decide⟩

end ClassRenaming

end JarRemap
