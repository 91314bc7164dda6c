import Mathlib.Data.List.Forall2
import JarRemap.Proofs.ClassFile.RoundTrip
import JarRemap.Proofs.Renaming.Attributes
import JarRemap.Proofs.Renaming.Symbol

/-!
# Renaming members

The fields and methods that a class declares. They are renamed in two steps with the pass over the
classes between them: first the symbols in their attributes, then their own names.
-/

namespace JarRemap

namespace ClassRenaming

variable {resolver : Resolver} {p p' : Pool}

/-- A member with the symbols in its attributes renamed. -/
def AttributesRenamed (m m' : Member) : Prop :=
  m' = { m with attributes := m'.attributes } ∧ IsAttributeTable m'.attributes

/-- A member under its new name and descriptor, in later constants. -/
structure NamesRenamed (rename : String → String → NewPair) (cs cs' : Constants)
    (m m' : Member) : Prop where
  access : m'.access = m.access
  attributes : m'.attributes = m.attributes
  names : ∀ n d, ClassFile.memberNames? cs m = some (n, d) →
    ClassFile.memberNames? cs' m' = some ((rename n d).name, (rename n d).desc)

/-- A member of a class that was renamed: it has the form of a member still, and its new name. -/
structure DeclarationRenamed (rename : String → String → NewPair) (cs cs' : Constants)
    (m m' : Member) : Prop where
  access : m'.access = m.access
  attributes : IsAttributeTable m'.attributes
  names : ∀ n d, ClassFile.memberNames? cs m = some (n, d) →
    ClassFile.memberNames? cs' m' = some ((rename n d).name, (rename n d).desc)

theorem memberNames?_eq_some {cs : Constants} {m : Member} {n d : String} :
    ClassFile.memberNames? cs m = some (n, d) ↔ cs.utf8? m.name = some n ∧ cs.utf8? m.desc = some d := by
  unfold ClassFile.memberNames?
  cases cs.utf8? m.name <;> cases cs.utf8? m.desc <;> simp

theorem memberNames?_keeps {cs cs' : Constants} (h : cs.Keeps Constant.isShared cs') {m : Member}
    {n d : String} (hm : ClassFile.memberNames? cs m = some (n, d)) :
    ClassFile.memberNames? cs' m = some (n, d) := by
  rw [memberNames?_eq_some] at hm ⊢
  exact ⟨h.utf8? hm.1, h.utf8? hm.2⟩

/-- Names that are read from earlier constants, and found in later ones, are the same. -/
theorem NamesRenamed.mono {rename : String → String → NewPair} {a b c d : Constants} {m m' : Member}
    (h : NamesRenamed rename b c m m') (hab : a.Keeps Constant.isShared b)
    (hcd : c.Keeps Constant.isShared d) : NamesRenamed rename a d m m' :=
  ⟨h.access, h.attributes, fun n desc hm =>
    memberNames?_keeps hcd (h.names n desc (memberNames?_keeps hab hm))⟩

theorem withPool_eq_ok {α : Type} {f : WithPool α} {a : α} (h : withPool f p = (.ok a, p')) :
    f p = (.ok a, p') := by
  have hrun : withPool f p = ((f p).1.mapError .classFile, (f p).2) := rfl
  rw [hrun] at h
  rcases hf : f p with ⟨r, next⟩
  rw [hf] at h
  cases r with
  | error e => cases h
  | ok b =>
    cases h
    rfl

theorem withPool_of_ok {α : Type} {f : WithPool α} {a : α} (h : f p = (.ok a, p')) :
    withPool f p = (.ok a, p') := by
  have hrun : withPool f p = ((f p).1.mapError .classFile, (f p).2) := rfl
  rw [hrun, h]
  rfl

theorem interns_renameAttributes (owner : String) (members : List Member) :
    Pool.Interns (members.mapM (renameAttributesOf resolver owner))
      fun _ members' => List.Forall₂ AttributesRenamed members members' := by
  induction members with
  | nil =>
    rw [List.mapM_nil]
    exact Pool.interns_pure fun _ => .nil
  | cons m members ih =>
    rw [List.mapM_cons]
    intro p members' p' hsound hrun
    obtain ⟨m', p₁, hfirst, hrun⟩ := bind_eq_ok hrun
    obtain ⟨table, _, htable, hm'⟩ := bind_eq_ok hfirst
    obtain ⟨hsound₁, hextends, hattributes⟩ :=
      Attributes.interns_rename resolver owner m.attributes p table _ hsound htable
    cases hm'
    obtain ⟨rest, p₂, hsecond, hrun⟩ := bind_eq_ok hrun
    obtain ⟨hsound₂, hextends', hrest⟩ := ih _ rest p₂ hsound₁ hsecond
    cases hrun
    exact ⟨hsound₂, hextends.trans hextends', .cons ⟨rfl, hattributes⟩ hrest⟩

/-- All members are renamed, unless two of them conflict. -/
theorem renameMembers_forall₂ {kind owner : String} {rename : String → String → NewPair}
    {ignoreConflicts : Bool} {seen : List NewPair} {members members' : List Member}
    (hsound : p.Sound)
    (hrun : renameMembers kind rename owner ignoreConflicts seen members p = (.ok members', p')) :
    p'.Sound ∧ p.Extends p' ∧
      List.Forall₂ (NamesRenamed rename p.constants p'.constants) members members' := by
  induction members generalizing seen p members' with
  | nil =>
    cases hrun
    exact ⟨hsound, .refl _, .nil⟩
  | cons m members ih =>
    rw [renameMembers] at hrun
    obtain ⟨_, _, hget, hrun⟩ := bind_eq_ok hrun
    cases hget
    have hrest : ∀ {next : Pool} {rest : List Member} {seen : List NewPair}, next.Sound →
        p.Extends next →
        renameMembers kind rename owner ignoreConflicts seen members next = (.ok rest, p') →
        p'.Sound ∧ p.Extends p' ∧ next.constants.Keeps Constant.isShared p'.constants ∧
          List.Forall₂ (NamesRenamed rename p.constants p'.constants) members rest := by
      intro next rest seen hnext hextends hrun
      obtain ⟨hsound', hextends', hmembers⟩ := ih hnext hrun
      refine ⟨hsound', hextends.trans hextends', hextends'.keeps _, hmembers.imp fun _ _ h => ?_⟩
      exact h.mono (hextends.keeps _) fun _ _ hc _ => hc
    cases hnames : ClassFile.memberNames? p.constants m with
    | none =>
      simp only [hnames] at hrun
      obtain ⟨rest, _, hmembers, hrun⟩ := bind_eq_ok hrun
      cases hrun
      obtain ⟨hsound', hextends, -, hmembers⟩ := hrest hsound (.refl p) hmembers
      refine ⟨hsound', hextends, .cons ⟨rfl, rfl, fun n d hm => ?_⟩ hmembers⟩
      exact absurd (hm.symm.trans hnames) (by simp)
    | some pair =>
      obtain ⟨n, d⟩ := pair
      simp only [hnames] at hrun
      split at hrun
      · cases hrun
      · obtain ⟨name, p₁, hname, hrun⟩ := bind_eq_ok hrun
        obtain ⟨hsound₁, hextends₁, hname⟩ :=
          Pool.interns_internText _ _ _ _ hsound (withPool_eq_ok hname)
        obtain ⟨desc, p₂, hdesc, hrun⟩ := bind_eq_ok hrun
        obtain ⟨hsound₂, hextends₂, hdesc⟩ :=
          Pool.interns_internText _ _ _ _ hsound₁ (withPool_eq_ok hdesc)
        obtain ⟨rest, _, hmembers, hrun⟩ := bind_eq_ok hrun
        cases hrun
        obtain ⟨hsound', hextends, hkeeps, hmembers⟩ :=
          hrest hsound₂ (hextends₁.trans hextends₂) hmembers
        refine ⟨hsound', hextends, .cons ⟨rfl, rfl, fun n' d' hm => ?_⟩ hmembers⟩
        cases hm.symm.trans hnames
        refine memberNames?_keeps hkeeps (memberNames?_eq_some.2 ⟨?_, ?_⟩)
        · rw [Constants.utf8?, hextends₂.at? hname]
        · rw [Constants.utf8?, hdesc]

/-- Both steps together rename the declarations. -/
theorem declarationsRenamed {rename : String → String → NewPair} {cs cs' : Constants}
    {members members₁ members' : List Member}
    (hfirst : List.Forall₂ AttributesRenamed members members₁)
    (hsecond : List.Forall₂ (NamesRenamed rename cs cs') members₁ members') :
    List.Forall₂ (DeclarationRenamed rename cs cs') members members' := by
  induction hfirst generalizing members' with
  | nil =>
    cases hsecond
    exact .nil
  | cons hattributes _ ih =>
    obtain _ | ⟨hnames, hrest⟩ := hsecond
    refine .cons ?_ (ih hrest)
    obtain ⟨hsame, htable⟩ := hattributes
    rw [hsame] at hnames
    exact ⟨hnames.access, hnames.attributes ▸ htable, hnames.names⟩

end ClassRenaming

end JarRemap
