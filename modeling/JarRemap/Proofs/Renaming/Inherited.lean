import JarRemap.Proofs.Dictionary.Lookup
import JarRemap.Proofs.Reach.Ancestors
import JarRemap.Proofs.Renaming.Classes

/-!
# References to inherited members

A reference names a class that may only inherit the member; the member table of the class that
declares it names another one. Both are renamed by a search through their own ancestors, in
different class files, and stay linked as long as the dictionary does not contradict itself above
the class that is referred to.
-/

namespace JarRemap

open Reach (Reaches)

namespace Resolver

variable {r : Resolver} {kind : MemberKind} {owner sub declarer name desc renamed : String}

/-- The new name of a member that a class declares or inherits. -/
def newMember? (kind : MemberKind) (r : Resolver) (owner name desc : String) : Option String :=
  match kind with
  | .field => r.newField? owner name (some desc)
  | .method => r.newMethod? owner name desc

/-- An initialiser, which keeps its name. -/
def Special (kind : MemberKind) (name : String) : Prop :=
  kind = .method ∧ name.toList.head? = some '<'

theorem newMember?_special (h : Special kind name) : r.newMember? kind owner name desc = none := by
  obtain ⟨rfl, hname⟩ := h
  rw [newMember?, newMethod?, if_pos hname]

theorem newMember?_method (hplain : ¬ Special .method name) :
    r.newMember? .method owner name desc =
      ((r.hierarchy.ancestors owner).findSome? fun X => r.dictionary.newExactMethod? X name desc).or
        ((r.hierarchy.ancestors owner).findSome? fun X => r.dictionary.newMethod? X name desc) := by
  rw [newMember?, newMethod?, if_neg fun hname => hplain ⟨rfl, hname⟩]
  exact Option.orElse_eq_or

/-- A new name is one that some ancestor gives. -/
theorem exists_ancestor_of_newMember? (h : r.newMember? kind owner name desc = some renamed) :
    ∃ X, Reaches r.hierarchy.parents owner X ∧
      r.dictionary.newMember? kind X name desc = some renamed := by
  have hsearch : ∀ {f : String → Option String},
      (r.hierarchy.ancestors owner).findSome? f = some renamed →
      ∃ X, Reaches r.hierarchy.parents owner X ∧ f X = some renamed := by
    intro f hf
    obtain ⟨X, hX, hfX⟩ := List.exists_of_findSome?_eq_some hf
    exact ⟨X, Hierarchy.mem_ancestors_iff.1 hX, hfX⟩
  cases kind with
  | field => exact hsearch h
  | method =>
    by_cases hspecial : Special .method name
    · rw [newMember?_special hspecial] at h
      cases h
    · rw [newMember?_method hspecial, Option.or_eq_some_iff] at h
      rcases h with hexact | ⟨-, hany⟩
      · obtain ⟨X, hX, hfX⟩ := hsearch hexact
        refine ⟨X, hX, ?_⟩
        rw [Dictionary.newMember?, Dictionary.newMethod?, hfX]
        rfl
      · exact hsearch hany

/-- An ancestor that gives a new name is enough to find one. -/
theorem newMember?_isSome (hplain : ¬ Special kind name) {X : String}
    (hX : Reaches r.hierarchy.parents owner X)
    (h : (r.dictionary.newMember? kind X name desc).isSome) :
    (r.newMember? kind owner name desc).isSome := by
  have hmem := Hierarchy.mem_ancestors_iff.2 hX
  cases kind with
  | field => exact List.findSome?_isSome_iff.2 ⟨X, hmem, h⟩
  | method =>
    rw [newMember?_method hplain, Option.isSome_or, Bool.or_eq_true]
    exact .inr (List.findSome?_isSome_iff.2 ⟨X, hmem, h⟩)

/-- A member that a class may inherit from an ancestor: all declarations above the class that have a
new name for it agree, and one of them is at or above the ancestor unless there are none. -/
structure Inherits (r : Resolver) (kind : MemberKind) (sub declarer name desc : String) : Prop where
  ancestor : Reaches r.hierarchy.parents sub declarer
  agree : ∀ X Y renamed renamed', Reaches r.hierarchy.parents sub X →
    Reaches r.hierarchy.parents sub Y → r.dictionary.newMember? kind X name desc = some renamed →
    r.dictionary.newMember? kind Y name desc = some renamed' → renamed = renamed'
  found : (∃ X, Reaches r.hierarchy.parents declarer X ∧
      (r.dictionary.newMember? kind X name desc).isSome) ∨
    ∀ X, Reaches r.hierarchy.parents sub X → r.dictionary.newMember? kind X name desc = none

/-- What a class inherits has the name that the ancestor has for it. -/
theorem Inherits.newMember?_eq (h : Inherits r kind sub declarer name desc) :
    r.newMember? kind sub name desc = r.newMember? kind declarer name desc := by
  by_cases hspecial : Special kind name
  · rw [newMember?_special hspecial, newMember?_special hspecial]
  -- the ancestors of the declarer are among those of the class that inherits
  have habove : ∀ {X}, Reaches r.hierarchy.parents declarer X → Reaches r.hierarchy.parents sub X :=
    fun hX => h.ancestor.trans hX
  rcases h.found with ⟨A, hA, hsome⟩ | hnone
  · obtain ⟨renamed, hsub⟩ := Option.isSome_iff_exists.1 (newMember?_isSome hspecial (habove hA) hsome)
    obtain ⟨renamed', hdeclarer⟩ := Option.isSome_iff_exists.1 (newMember?_isSome hspecial hA hsome)
    obtain ⟨X, hX, hrenamed⟩ := exists_ancestor_of_newMember? hsub
    obtain ⟨Y, hY, hrenamed'⟩ := exists_ancestor_of_newMember? hdeclarer
    rw [hsub, hdeclarer, h.agree X Y renamed renamed' hX (habove hY) hrenamed hrenamed']
  · have hnowhere : ∀ {owner}, Reaches r.hierarchy.parents sub owner →
        r.newMember? kind owner name desc = none := by
      intro owner howner
      refine Option.eq_none_iff_forall_ne_some.2 fun renamed hrenamed => ?_
      obtain ⟨X, hX, hfound⟩ := exists_ancestor_of_newMember? hrenamed
      rw [hnone X (howner.trans hX)] at hfound
      cases hfound
    rw [hnowhere .refl, hnowhere h.ancestor]

end Resolver

namespace ClassRenaming

variable {r : Resolver} {kind : MemberKind}

/-- The symbols that refer to a member of a kind. -/
def references : MemberKind → List (String → String → String → Symbol)
  | .field => [.field]
  | .method => [.method, .interfaceMethod]

/-- The declarations of a kind in a class file. -/
def declarations (kind : MemberKind) (c : ClassFile) : List Member :=
  match kind with
  | .field => c.fields
  | .method => c.methods

/-- A member as a class refers to it, under its new name. -/
def renameMember (kind : MemberKind) (r : Resolver) (owner name desc : String) : NewPair :=
  ⟨(r.newMember? kind owner name desc).getD name, r.newDescriptor desc⟩

theorem renamed_reference {make : String → String → String → Symbol} (hmake : make ∈ references kind)
    (lambdas : List (Option String)) (owner name desc : String) :
    (make owner name desc).renamed r lambdas =
      make (Symbol.newOwner r owner) (renameMember kind r owner name desc).name
        (renameMember kind r owner name desc).desc := by
  cases kind with
  | field =>
    obtain rfl := List.mem_singleton.1 hmake
    rfl
  | method =>
    rcases List.mem_pair.1 hmake with rfl | rfl
    · rfl
    · rfl

/-- References and declarations of a class file that was rewritten have their new names. -/
theorem Rewriting.names {bytes out : List UInt8} {c c' : ClassFile}
    (h : Rewriting r bytes out c c') (kind : MemberKind) :
    (∀ i, ∀ make ∈ references kind, ∀ owner name desc,
      symbolAt? c i = some (make owner name desc) →
      symbolAt? c' i = some (make (Symbol.newOwner r owner)
        (renameMember kind r owner name desc).name (renameMember kind r owner name desc).desc)) ∧
    List.Forall₂ (DeclarationRenamed (renameMember kind r c.name) c.constants c'.constants)
      (declarations kind c) (declarations kind c') := by
  obtain ⟨-, lambdas, -, hsymbols⟩ := renamed_spec (ClassFile.framed_of_parse h.read) h.renamed
  refine ⟨?_, ?_⟩
  · intro i make hmake owner name desc hi
    rw [hsymbols.symbols i _ hi, renamed_reference hmake]
  · cases kind with
    | field => exact hsymbols.fields
    | method => exact hsymbols.methods

/-- A reference to an inherited member and the declaration that it is inherited from stay linked: in
whatever class files they stand, rewriting gives both the same name and the same descriptor. -/
theorem references_follow_declarations {sub declarer name desc : String}
    (h : r.Inherits kind sub declarer name desc) :
    r.newMember? kind sub name desc = r.newMember? kind declarer name desc ∧
    ∀ {bytes out bytes' out' : List UInt8} {c c' d d' : ClassFile}, Rewriting r bytes out c c' →
      Rewriting r bytes' out' d d' → d.name = declarer →
      ∀ i, ∀ make ∈ references kind, symbolAt? c i = some (make sub name desc) →
      ∀ (j : Nat) (m : Member), (declarations kind d)[j]? = some m →
        ClassFile.memberNames? d.constants m = some (name, desc) →
        ∃ newName newDesc m', symbolAt? c' i = some (make (Symbol.newOwner r sub) newName newDesc) ∧
          (declarations kind d')[j]? = some m' ∧
          ClassFile.memberNames? d'.constants m' = some (newName, newDesc) := by
  refine ⟨h.newMember?_eq, ?_⟩
  intro bytes out bytes' out' c c' d d' huser hdeclarer hname i make hmake hi j m hj hm
  obtain ⟨hreferences, -⟩ := huser.names kind
  obtain ⟨-, hdeclarations⟩ := hdeclarer.names kind
  obtain ⟨hlength, hpairs⟩ := List.forall₂_iff_get.1 hdeclarations
  obtain ⟨hlt, hget⟩ := List.getElem?_eq_some_iff.1 hj
  have hrenamed := (hpairs j hlt (hlength ▸ hlt)).names name desc (by
    rwa [List.get_eq_getElem, hget])
  rw [hname, renameMember, ← h.newMember?_eq] at hrenamed
  exact ⟨_, _, _, hreferences i make hmake sub name desc hi, List.getElem?_eq_getElem (hlength ▸ hlt),
    hrenamed⟩

/-- A class that declares a method, and refers to it by the name of a class that inherits it. -/
def callingClass : ClassFile where
  minor := 0
  major := 52
  constants := #[.unusable, .methodRef 5 8, .utf8 "a", .classRef 2, .utf8 "b", .classRef 4,
    .utf8 "m", .utf8 "()V", .nameAndType 6 7]
  access := 0
  thisClass := 3
  superClass := 0
  interfaces := []
  fields := []
  methods := [⟨0, 6, 7, [0, 0]⟩]
  attributes := [0, 0]

/-- The calling class under the new name of its method. -/
def callingClassRenamed : ClassFile :=
  { callingClass with
    constants := #[.unusable, .methodRef 5 10, .utf8 "a", .classRef 2, .utf8 "b", .classRef 4,
      .utf8 "m", .utf8 "()V", .nameAndType 6 7, .utf8 "run", .nameAndType 9 7]
    methods := [⟨0, 9, 7, [0, 0]⟩] }

/-- A resolver that knows the method, and which class inherits it. -/
def callingResolver : Resolver where
  dictionary :=
    { source := ⟨"official", false⟩, target := ⟨"intermediary", false⟩,
      methods := ({} : OrderedMap MemberKey String).insert ⟨"a", "m", some "()V"⟩ "run" }
  hierarchy := ({} : Hierarchy).insert "b" ["a"]

theorem internText_of_known {p : Pool} {text : String} {index : UInt16}
    (h : p.texts[text]? = some index) : Pool.internText text p = (.ok index, p) := by
  rw [Pool.internText, h]

section Calling

variable {texts : Std.HashMap String UInt16} {pairs : Std.HashMap (UInt16 × UInt16) UInt16}

/-- The reference is the first constant; the others stay as they are. -/
theorem mapConstants_callingClass (hnew : texts["run"]? = none) (hdesc : texts["()V"]? = some 7)
    (hpair : pairs[((9, 7) : UInt16 × UInt16)]? = none) :
    mapConstants (renameMemberIn callingResolver []) (callingClass.constants.size - 1) 1
      ⟨callingClass.constants, texts, pairs⟩ =
      (.ok (), ⟨callingClassRenamed.constants, texts.insertIfNew "run" 9,
        pairs.insertIfNew (9, 7) 10⟩) := by
  have hname : Pool.internText "run" ⟨callingClass.constants, texts, pairs⟩ =
      (.ok 9, ⟨callingClass.constants.push (.utf8 "run"), texts.insertIfNew "run" 9, pairs⟩) := by
    rw [Pool.internText, hnew]
    rfl
  have hdesc' : (texts.insertIfNew "run" 9)["()V"]? = some 7 := by
    simp [Std.HashMap.getElem?_insertIfNew, hdesc]
  have hintern : Pool.internPair "run" "()V" ⟨callingClass.constants, texts, pairs⟩ =
      (.ok 10, ⟨(callingClass.constants.push (.utf8 "run")).push (.nameAndType 9 7),
        texts.insertIfNew "run" 9, pairs.insertIfNew (9, 7) 10⟩) := by
    rw [Pool.internPair, bind_of_ok hname, bind_of_ok (internText_of_known hdesc'),
      bind_of_ok (show (get : WithPool Pool) _ = (.ok _, _) from rfl)]
    dsimp only
    rw [hpair]
    rfl
  have hreference : renameMemberIn callingResolver [] (.methodRef 5 8)
      ⟨callingClass.constants, texts, pairs⟩ = (.ok (.methodRef 5 10),
        ⟨(callingClass.constants.push (.utf8 "run")).push (.nameAndType 9 7),
          texts.insertIfNew "run" 9, pairs.insertIfNew (9, 7) 10⟩) :=
    bind_of_ok hintern
  have hset : ((callingClass.constants.push (.utf8 "run")).push (.nameAndType 9 7)).set! 1
      (.methodRef 5 10) = callingClassRenamed.constants := rfl
  rw [show callingClass.constants.size - 1 = 7 + 1 from rfl, mapConstants_succ rfl hreference, hset]
  refine mapConstants_of_fixed fun c hc => ?_
  simp only [callingClassRenamed, List.drop_succ_cons, List.drop_zero, List.mem_cons,
    List.not_mem_nil, or_false] at hc
  rcases hc with rfl | rfl | rfl | rfl | rfl | rfl | rfl | rfl | rfl <;> rfl

/-- The classes have no new names, and the declaration gets the texts that the reference got. -/
theorem renameAll_callingClass (hnew : texts["run"]? = none) (hdesc : texts["()V"]? = some 7)
    (hpair : pairs[((9, 7) : UInt16 × UInt16)]? = none) :
    (renameAll callingResolver callingClass ⟨callingClass.constants, texts, pairs⟩).1 =
      .ok callingClassRenamed := by
  have hmembers := mapConstants_callingClass hnew hdesc hpair
  have hrun : (texts.insertIfNew "run" 9)["run"]? = some 9 := by
    have hnot : "run" ∉ texts := by
      simp [Std.HashMap.mem_iff_isSome_getElem?, hnew]
    rw [Std.HashMap.getElem?_insertIfNew, if_pos ⟨beq_self_eq_true _, hnot⟩]
  have hdesc' : (texts.insertIfNew "run" 9)["()V"]? = some 7 := by
    simp [Std.HashMap.getElem?_insertIfNew, hdesc]
  have hlambdas : (liftM (Lambda.implemented callingClass) : WithPool (List (Option String)))
      ⟨callingClass.constants, texts, pairs⟩ = (.ok [], ⟨callingClass.constants, texts, pairs⟩) := rfl
  generalize texts.insertIfNew "run" 9 = texts' at hmembers hrun hdesc'
  generalize pairs.insertIfNew (9, 7) 10 = pairs' at hmembers
  generalize hpool : (⟨callingClassRenamed.constants, texts', pairs'⟩ : Pool) = pool at hmembers
  have hattributes : Attributes.rename callingResolver callingClass.name callingClass.attributes pool =
      (.ok [0, 0], pool) := Attributes.rename_empty _ _ _
  have hfields : (callingClass.fields.mapM (renameAttributesOf callingResolver callingClass.name))
      pool = (.ok [], pool) := rfl
  have hmethod : renameAttributesOf callingResolver callingClass.name ⟨0, 6, 7, [0, 0]⟩ pool =
      (.ok ⟨0, 6, 7, [0, 0]⟩, pool) := bind_of_ok hattributes
  have hmethods : (callingClass.methods.mapM (renameAttributesOf callingResolver callingClass.name))
      pool = (.ok callingClass.methods, pool) := by
    rw [show callingClass.methods = [⟨0, 6, 7, [0, 0]⟩] from rfl, List.mapM_cons, bind_of_ok hmethod]
    rfl
  have howners : mapConstants (renameClassIn callingResolver) (callingClass.constants.size - 1) 1
      pool = (.ok (), pool) := by
    subst hpool
    refine mapConstants_of_fixed fun c hc => ?_
    simp only [callingClassRenamed, List.drop_succ_cons, List.drop_zero, List.mem_cons,
      List.not_mem_nil, or_false] at hc
    rcases hc with rfl | rfl | rfl | rfl | rfl | rfl | rfl | rfl | rfl | rfl <;> rfl
  have hdeclarations : renameMembers "method" (renameMethod callingResolver callingClass.name)
      callingClass.name callingResolver.ignoreConflicts [] callingClass.methods pool =
      (.ok callingClassRenamed.methods, pool) := by
    subst hpool
    refine (bind_of_ok rfl).trans ?_
    refine (bind_of_ok (withPool_of_ok (internText_of_known hrun))).trans ?_
    exact (bind_of_ok (withPool_of_ok (internText_of_known hdesc'))).trans rfl
  unfold renameAll
  rw [bind_of_ok (withPool_of_ok hlambdas), bind_of_ok (withPool_of_ok hmembers),
    bind_of_ok (withPool_of_ok hattributes), bind_of_ok (withPool_of_ok hfields),
    bind_of_ok (withPool_of_ok hmethods), bind_of_ok (withPool_of_ok howners),
    bind_of_ok (show renameMembers "field" _ _ _ [] [] pool = (.ok [], pool) from rfl),
    bind_of_ok hdeclarations]
  subst hpool
  rfl

end Calling

theorem rewriting_callingClass : Rewriting callingResolver callingClass.toBytes
    callingClassRenamed.toBytes callingClass callingClassRenamed := by
  have hread : ClassFile.parse callingClass.toBytes = .ok callingClass := by decide +kernel
  refine ⟨hread, ?_, rfl⟩
  have hpool : Pool.ofConstants callingClass.constants =
      ⟨callingClass.constants, (((({} : Std.HashMap String UInt16).insertIfNew "a" 2).insertIfNew "b"
        4).insertIfNew "m" 6).insertIfNew "()V" 7,
        ({} : Std.HashMap (UInt16 × UInt16) UInt16).insertIfNew (6, 7) 8⟩ := rfl
  change (renameAll callingResolver callingClass (Pool.ofConstants callingClass.constants)).1 = _
  rw [hpool]
  exact renameAll_callingClass (by simp) (by simp [Std.HashMap.getElem_insertIfNew]) (by simp)

theorem references_follow_declarations_callingClass :
    callingResolver.Inherits .method "b" "a" "m" "()V" ∧
      Rewriting callingResolver callingClass.toBytes callingClassRenamed.toBytes callingClass
        callingClassRenamed ∧
      ∃ newName newDesc m',
        symbolAt? callingClassRenamed 1 = some (.method "b" newName newDesc) ∧
        callingClassRenamed.methods[0]? = some m' ∧
        ClassFile.memberNames? callingClassRenamed.constants m' = some (newName, newDesc) := by
  have hancestors : callingResolver.hierarchy.ancestors "b" = ["b", "a"] := by cbv
  have hrun : ∀ X renamed, Reaches callingResolver.hierarchy.parents "b" X →
      callingResolver.dictionary.newMember? .method X "m" "()V" = some renamed → renamed = "run" := by
    intro X renamed hX h
    have hmem := Hierarchy.mem_ancestors_iff.2 hX
    rw [hancestors] at hmem
    rcases List.mem_pair.1 hmem with rfl | rfl
    · cases h
    · exact (Option.some.inj h).symm
  have hinherits : callingResolver.Inherits .method "b" "a" "m" "()V" := by
    constructor
    case ancestor =>
      rw [← Hierarchy.mem_ancestors_iff, hancestors]
      decide
    case agree =>
      intro X Y renamed renamed' hX hY h h'
      rw [hrun X renamed hX h, hrun Y renamed' hY h']
    case found => exact .inl ⟨"a", .refl, by rfl⟩
  refine ⟨hinherits, rewriting_callingClass, ?_⟩
  exact (references_follow_declarations hinherits).2 rewriting_callingClass rewriting_callingClass
    (by rfl) 1 .method List.mem_cons_self (by rfl) 0 ⟨0, 6, 7, [0, 0]⟩ (by rfl) (by rfl)

end ClassRenaming

end JarRemap
