import JarRemap.Proofs.Renaming.Classes
import JarRemap.Proofs.Renaming.Turns

/-!
# Members that get the same name

What is refused for a conflict, and what is not. Conflicts count only when members come to their
turns, so nothing before depends on whether they are ignored. Only then two members of a class may
be found to get one name and descriptor.
-/

namespace JarRemap

namespace Resolver

/-- The resolver under which two members of a class cannot get the same name and descriptor. -/
def strict (r : Resolver) : Resolver := { r with ignoreConflicts := false }

/-- The resolver under which they can. -/
def lenient (r : Resolver) : Resolver := { r with ignoreConflicts := true }

end Resolver

/-! ### Attributes -/

namespace Attributes

section Setting

variable (resolver : Resolver) (ignore : Bool)

theorem annotation_ignoreConflicts (depth : Nat) :
    annotationEntry { resolver with ignoreConflicts := ignore } depth =
        annotationEntry resolver depth ∧
      elementValue { resolver with ignoreConflicts := ignore } depth =
        elementValue resolver depth := by
  induction depth with
  | zero => exact ⟨rfl, rfl⟩
  | succ depth ih =>
    constructor
    · rw [annotationEntry, annotationEntry, ih.2]
      rfl
    · rw [elementValue, elementValue, ih.1, ih.2]
      rfl

theorem table_ignoreConflicts (owner : String) (depth : Nat) :
    table { resolver with ignoreConflicts := ignore } owner depth = table resolver owner depth ∧
      contents { resolver with ignoreConflicts := ignore } owner depth =
        contents resolver owner depth := by
  induction depth with
  | zero => exact ⟨rfl, rfl⟩
  | succ depth ih =>
    obtain ⟨hentry, hvalue⟩ := annotation_ignoreConflicts resolver ignore depth
    refine ⟨by rw [table, table, ih.2], funext fun name => ?_⟩
    unfold contents typeAnnotationEntry
    rw [ih.1, hentry, hvalue]
    rfl

/-- Whether conflicts are ignored has no say in tables. -/
theorem rename_ignoreConflicts (owner : String) (attributes : List UInt8) :
    rename { resolver with ignoreConflicts := ignore } owner attributes =
      rename resolver owner attributes := by
  unfold rename
  rw [(table_ignoreConflicts resolver ignore owner _).1]

end Setting

end Attributes

namespace ClassRenaming

variable {resolver : Resolver} {c : ClassFile} {p p' : Pool}

/-! ### Before the members -/

/-- What is done before the members come to their turns: the table of a class is renamed, and its
fields and methods have their tables renamed. -/
def prepared (resolver : Resolver) (c : ClassFile) :
    Renamer (List UInt8 × List Member × List Member) := do
  let others := c.constants.size - 1
  let lambdas ← withPool (liftM (Lambda.implemented c))
  withPool (mapConstants (renameMemberIn resolver lambdas) others 1)
  let attributes ← withPool (Attributes.rename resolver c.name c.attributes)
  let fields ← withPool (c.fields.mapM (renameAttributesOf resolver c.name))
  let methods ← withPool (c.methods.mapM (renameAttributesOf resolver c.name))
  withPool (mapConstants (renameClassIn resolver) others 1)
  return (attributes, fields, methods)

theorem noConflict_prepared (resolver : Resolver) (c : ClassFile) :
    NoConflict (prepared resolver c) := by
  refine (noConflict_withPool _).bind fun _ => (noConflict_withPool _).bind fun _ => ?_
  refine (noConflict_withPool _).bind fun _ => (noConflict_withPool _).bind fun _ => ?_
  refine (noConflict_withPool _).bind fun _ => (noConflict_withPool _).bind fun _ => ?_
  exact noConflict_pure _

/-- Whether conflicts are ignored has no say before the members come to their turns. -/
theorem prepared_ignoreConflicts (resolver : Resolver) (ignore : Bool) (c : ClassFile) :
    prepared { resolver with ignoreConflicts := ignore } c = prepared resolver c := by
  have hattributes : renameAttributesOf { resolver with ignoreConflicts := ignore } c.name =
      renameAttributesOf resolver c.name := by
    funext m
    rw [renameAttributesOf, renameAttributesOf, Attributes.rename_ignoreConflicts]
  rw [prepared, prepared, Attributes.rename_ignoreConflicts, hattributes]
  rfl

/-- Then the fields come to their turns, and then the methods; only now conflicts may count. -/
theorem renameAll_eq (resolver : Resolver) (ignore : Bool) (c : ClassFile) :
    renameAll { resolver with ignoreConflicts := ignore } c =
      prepared resolver c >>= fun (attributes, fields, methods) => do
        let fields ← renameMembers "field" (renameField resolver c.name) c.name ignore [] fields
        let methods ← renameMembers "method" (renameMethod resolver c.name) c.name ignore [] methods
        return { c with attributes, fields, methods, constants := (← get).constants } := by
  rw [← prepared_ignoreConflicts resolver ignore]
  simp only [renameAll, prepared, bind_assoc, pure_bind]
  rfl

/-- A pool in which the members of a class come to their turns. -/
def Ready (resolver : Resolver) (c : ClassFile) (p : Pool) : Prop :=
  ∃ done, prepared resolver c (Pool.ofConstants c.constants) = (.ok done, p)

theorem after_prepared {attributes : List UInt8} {fields methods : List Member} (hc : c.Framed)
    (hrun : prepared resolver c (Pool.ofConstants c.constants) =
      (.ok (attributes, fields, methods), p)) :
    After c p ∧ List.Forall₂ AttributesRenamed c.fields fields ∧
      List.Forall₂ AttributesRenamed c.methods methods := by
  obtain ⟨hsound, hp⟩ := Pool.sound_ofConstants hc.size
  generalize Pool.ofConstants c.constants = p₀ at hsound hp hrun
  obtain ⟨lambdas, _, hlambdas, hrun⟩ := bind_eq_ok hrun
  obtain ⟨-, hp₀⟩ := liftM_eq_ok (withPool_eq_ok hlambdas)
  rw [hp₀] at hrun
  obtain ⟨⟨⟩, p₁, hreferences, hrun⟩ := bind_eq_ok hrun
  obtain ⟨_, p₂, htable, hrun⟩ := bind_eq_ok hrun
  obtain ⟨_, p₃, hfields, hrun⟩ := bind_eq_ok hrun
  obtain ⟨_, p₄, hmethods, hrun⟩ := bind_eq_ok hrun
  obtain ⟨⟨⟩, p₅, hclasses, hrun⟩ := bind_eq_ok hrun
  cases hrun
  replace hreferences := withPool_eq_ok hreferences
  replace hclasses := withPool_eq_ok hclasses
  have hfirst := changes_renameMemberIn resolver lambdas p₀.constants
  have hpass := hfirst.pass_mapConstants _ 1 hsound (.refl _ _) hreferences
  have hstay₁ := hfirst.textsStay noNewText_renameMemberIn _ 1 hsound (.refl _ _) hreferences
  obtain ⟨hsound₂, hextends₂, -⟩ := Attributes.interns_rename resolver c.name c.attributes _ _ _
    hpass.sound (withPool_eq_ok htable)
  obtain ⟨hsound₃, hextends₃, hfields⟩ := interns_renameAttributes c.name c.fields _ _ _ hsound₂
    (withPool_eq_ok hfields)
  obtain ⟨hsound₄, hextends₄, hmethods⟩ := interns_renameAttributes c.name c.methods _ _ _ hsound₃
    (withPool_eq_ok hmethods)
  have hlast := changes_renameClassIn resolver p₄.constants
  have hpass' := hlast.pass_mapConstants _ 1 hsound₄ (.refl _ _) hclasses
  have hstay₅ := hlast.textsStay noNewText_renameClassIn _ 1 hsound₄ (.refl _ _) hclasses
  have hstay₄ := textsStay_of_extends ((hextends₂.trans hextends₃).trans hextends₄)
  exact ⟨⟨hpass'.sound, hp ▸ (hstay₁.trans hstay₄).trans hstay₅⟩, hfields, hmethods⟩

/-! ### Classes -/

/-- Members that have names in their turns, and different ones when the class is written. -/
structure Distinguished (cs : Constants) (members : List Member)
    (pairs : List (Option NewPair)) : Prop where
  called : List.Forall₂ (Called cs) members pairs
  distinct : (members.zip pairs).Pairwise fun a b => a.2.isSome → b.2.isSome →
    ClassFile.memberNames? cs a.1 ≠ ClassFile.memberNames? cs b.1

theorem distinguished_of_nodup {cs : Constants} {members : List Member}
    {pairs : List (Option NewPair)} (h : List.Forall₂ (Called cs) members pairs)
    (hnodup : pairs.reduceOption.Nodup) : Distinguished cs members pairs := by
  refine ⟨h, ?_⟩
  induction h with
  | nil => exact .nil
  | @cons m r? members pairs hm hrest ih =>
    cases r? with
    | none => exact .cons (fun _ _ => nofun) (ih hnodup)
    | some r =>
      rw [List.reduceOption_cons_of_some, List.nodup_cons] at hnodup
      refine .cons ?_ (ih hnodup.2)
      rintro ⟨m', r'?⟩ hmem - hsome hsame
      obtain ⟨r', rfl⟩ := Option.isSome_iff_exists.1 hsome
      have hm' : Called cs m' (some r') := (List.forall₂_iff_zip.1 hrest).2 hmem
      have hr := (hm r rfl).symm.trans (hsame.trans (hm' r' rfl))
      obtain rfl : r = r' := by
        cases r
        cases r'
        cases hr
        rfl
      exact hnodup.1 (List.reduceOption_mem_iff.2 (List.of_mem_zip hmem).2)

/-- A conflict among the fields or the methods of a class that came to their turns, none of which
failed for want of room. -/
def Conflicting (resolver : Resolver) (c : ClassFile) (kind : String) (r : NewPair) : Prop :=
  ∃ p, Ready resolver c p ∧
    (kind = "field" ∧ FirstRepeated c (renameField resolver c.name) p c.fields r ∨
      kind = "method" ∧ ∃ pairs p', Turns c (renameField resolver c.name) p c.fields pairs p' ∧
        pairs.reduceOption.Nodup ∧
        FirstRepeated c (renameMethod resolver c.name) p' c.methods r)

section Renamed

variable {c' : ClassFile}

theorem renamed_eq (resolver : Resolver) (c : ClassFile) :
    renamed resolver c = (renameAll resolver c (Pool.ofConstants c.constants)).1 := rfl

theorem exists_run {α : Type} {f : Renamer α} {result : Except RenameFault α}
    (h : (f p).1 = result) : ∃ p', f p = (result, p') := ⟨(f p).2, Prod.ext h rfl⟩

theorem renamed_conflict_iff (hc : c.Framed) {kind owner name desc : String} :
    renamed resolver.strict c = .error (.conflict kind owner name desc) ↔
      owner = c.name ∧ Conflicting resolver c kind ⟨name, desc⟩ := by
  rw [renamed_eq, Resolver.strict, renameAll_eq]
  constructor
  · intro h
    obtain ⟨p', hrun⟩ := exists_run h
    rcases bind_eq_error hrun with hrun | ⟨⟨attributes, fields, methods⟩, p, hprep, hrun⟩
    · exact absurd hrun (noConflict_prepared resolver c _ _)
    obtain ⟨hafter, hfields, hmethods⟩ := after_prepared hc hprep
    replace hfields := forall₂_sameNames_symm (sameNames_of_attributesRenamed hfields)
    replace hmethods := forall₂_sameNames_symm (sameNames_of_attributesRenamed hmethods)
    have hempty : resolver.strict.ignoreConflicts = true ∨ ([] : List NewPair).Nodup :=
      .inr List.nodup_nil
    rcases bind_eq_error hrun with hrun | ⟨fields', p₁, hfirst, hrun⟩
    · obtain ⟨rfl, rfl, -, hrepeated⟩ := firstRepeated_of_renameMembers hafter hrun
      exact ⟨rfl, p, ⟨_, hprep⟩, .inl ⟨rfl, hrepeated.of_sameNames hfields⟩⟩
    obtain ⟨pairs, hturns, hfresh⟩ := turns_of_renameMembers hafter hempty hfirst
    have hnodup := hfresh.resolve_left Bool.false_ne_true
    rcases bind_eq_error hrun with hrun | ⟨methods', p₂, -, hrun⟩
    · obtain ⟨rfl, rfl, -, hrepeated⟩ :=
        firstRepeated_of_renameMembers (hturns.after hafter).1 hrun
      exact ⟨rfl, p, ⟨_, hprep⟩, .inr ⟨rfl, pairs, p₁, hturns.of_sameNames hfields, hnodup,
        hrepeated.of_sameNames hmethods⟩⟩
    rcases bind_eq_error hrun with hrun | ⟨_, _, -, hrun⟩
    · cases hrun
    · cases hrun
  · rintro ⟨rfl, p, ⟨⟨attributes, fields, methods⟩, hprep⟩, hconflict⟩
    obtain ⟨hafter, hfields, hmethods⟩ := after_prepared hc hprep
    replace hfields := sameNames_of_attributesRenamed hfields
    replace hmethods := sameNames_of_attributesRenamed hmethods
    rw [bind_of_ok hprep]
    rcases hconflict with ⟨rfl, hrepeated⟩ | ⟨rfl, pairs, p', hturns, hnodup, hrepeated⟩
    · obtain ⟨p', hrun⟩ := (hrepeated.of_sameNames hfields).run hafter "field" c.name
      exact congrArg Prod.fst (bind_of_error hrun)
    · replace hturns := hturns.of_sameNames hfields
      obtain ⟨fields', -, hfirst⟩ := hturns.run_all hafter
      obtain ⟨p'', hrun⟩ := (hrepeated.of_sameNames hmethods).run (hturns.after hafter).1
        "method" c.name
      dsimp only
      rw [bind_of_ok (hfirst "field" c.name false (.inr hnodup))]
      exact congrArg Prod.fst (bind_of_error hrun)

/-- What is renamed although conflicts are not ignored is renamed in the same way if they are. -/
theorem renamed_lenient_of_strict (hc : c.Framed) (h : renamed resolver.strict c = .ok c') :
    renamed resolver.lenient c = .ok c' ∧
      ∃ p fieldPairs p₁ methodPairs p₂, Ready resolver c p ∧
        Turns c (renameField resolver c.name) p c.fields fieldPairs p₁ ∧
        Turns c (renameMethod resolver c.name) p₁ c.methods methodPairs p₂ ∧
        Distinguished c'.constants c'.fields fieldPairs ∧
        Distinguished c'.constants c'.methods methodPairs := by
  rw [renamed_eq, Resolver.strict, renameAll_eq] at h
  rw [renamed_eq, Resolver.lenient, renameAll_eq]
  obtain ⟨p₂, hrun⟩ := exists_run h
  obtain ⟨⟨attributes, fields, methods⟩, p, hprep, hrun⟩ := bind_eq_ok hrun
  obtain ⟨hafter, hfields, hmethods⟩ := after_prepared hc hprep
  obtain ⟨fields', p₁, hfirst, hrun⟩ := bind_eq_ok hrun
  obtain ⟨methods', p₂', hsecond, hrun⟩ := bind_eq_ok hrun
  obtain ⟨_, _, hget, hrun⟩ := bind_eq_ok hrun
  cases hget
  cases hrun
  obtain ⟨hfirst', fieldPairs, hturns, hcalled, hnodup⟩ := turns_of_no_conflict hafter hfirst
  obtain ⟨hafter₁, -⟩ := hturns.after hafter
  obtain ⟨hsecond', methodPairs, hturns', hcalled', hnodup'⟩ :=
    turns_of_no_conflict hafter₁ hsecond
  obtain ⟨-, hextends⟩ := hturns'.after hafter₁
  constructor
  · rw [bind_of_ok hprep]
    dsimp only
    rw [bind_of_ok hfirst', bind_of_ok hsecond']
    rfl
  · replace hfields := forall₂_sameNames_symm (sameNames_of_attributesRenamed hfields)
    replace hmethods := forall₂_sameNames_symm (sameNames_of_attributesRenamed hmethods)
    refine ⟨p, fieldPairs, p₁, methodPairs, p₂, ⟨_, hprep⟩, hturns.of_sameNames hfields,
      hturns'.of_sameNames hmethods, distinguished_of_nodup ?_ hnodup,
      distinguished_of_nodup hcalled' hnodup'⟩
    exact hcalled.imp fun m r? hm r hr => memberNames?_keeps (hextends.keeps _) (hm r hr)

theorem renamed_lenient_ne_conflict (hc : c.Framed) (kind owner name desc : String) :
    renamed resolver.lenient c ≠ .error (.conflict kind owner name desc) := by
  intro h
  rw [renamed_eq, Resolver.lenient, renameAll_eq] at h
  obtain ⟨p', hrun⟩ := exists_run h
  rcases bind_eq_error hrun with hrun | ⟨⟨attributes, fields, methods⟩, p, hprep, hrun⟩
  · exact noConflict_prepared resolver c _ _ hrun
  obtain ⟨hafter, -, -⟩ := after_prepared hc hprep
  rcases bind_eq_error hrun with hrun | ⟨fields', p₁, hfirst, hrun⟩
  · exact absurd (firstRepeated_of_renameMembers hafter hrun).2.2.1 (by decide)
  obtain ⟨pairs, hturns, -⟩ := turns_of_renameMembers hafter (.inl rfl) hfirst
  rcases bind_eq_error hrun with hrun | ⟨methods', p₂, -, hrun⟩
  · exact absurd (firstRepeated_of_renameMembers (hturns.after hafter).1 hrun).2.2.1 (by decide)
  rcases bind_eq_error hrun with hrun | ⟨_, _, -, hrun⟩
  · cases hrun
  · cases hrun

theorem renamedBytes_eq_conflict {bytes : List UInt8} {kind owner name desc : String} :
    renamedBytes resolver bytes = .error (.conflict kind owner name desc) ↔
      ∃ c, ClassFile.parse bytes = .ok c ∧
        renamed resolver c = .error (.conflict kind owner name desc) := by
  have hrun : renamedBytes resolver bytes =
      ((ClassFile.parse bytes).mapError .classFile).bind fun c =>
        (renamed resolver c).bind fun c' => .ok c'.toBytes := rfl
  rw [hrun]
  cases ClassFile.parse bytes with
  | error e => simp [Except.mapError, Except.bind]
  | ok c => cases hrenamed : renamed resolver c <;> simp [Except.mapError, Except.bind, hrenamed]

end Renamed

/-- The bytes of a class are refused for a conflict if and only if a member of the class gets the
name and the descriptor that another one got before it, by the names that they have in their turns,
and nothing failed before. What is written if there is no conflict would be written as well if
conflicts were ignored, and no two members that have names in their turns are called the same in it.
If conflicts are ignored, nothing is refused for one. -/
theorem conflicts_are_reported_iff (resolver : Resolver) (bytes : List UInt8) :
    (∀ kind owner name desc,
      renamedBytes resolver.strict bytes = .error (.conflict kind owner name desc) ↔
        ∃ c, ClassFile.parse bytes = .ok c ∧ owner = c.name ∧
          Conflicting resolver c kind ⟨name, desc⟩) ∧
    (∀ out, renamedBytes resolver.strict bytes = .ok out →
      renamedBytes resolver.lenient bytes = .ok out ∧
      ∃ c c' p fieldPairs p₁ methodPairs p₂, Rewriting resolver.strict bytes out c c' ∧
        Ready resolver c p ∧ Turns c (renameField resolver c.name) p c.fields fieldPairs p₁ ∧
        Turns c (renameMethod resolver c.name) p₁ c.methods methodPairs p₂ ∧
        Distinguished c'.constants c'.fields fieldPairs ∧
        Distinguished c'.constants c'.methods methodPairs) ∧
    ∀ kind owner name desc,
      renamedBytes resolver.lenient bytes ≠ .error (.conflict kind owner name desc) := by
  refine ⟨fun kind owner name desc => ?_, fun out h => ?_, fun kind owner name desc h => ?_⟩
  · rw [renamedBytes_eq_conflict]
    refine exists_congr fun c => and_congr_right fun hread => ?_
    exact renamed_conflict_iff (ClassFile.framed_of_parse hread)
  · obtain ⟨c, c', hrewriting⟩ := renamedBytes_eq_ok.1 h
    obtain ⟨hlenient, p, fieldPairs, p₁, methodPairs, p₂, hmembers⟩ :=
      renamed_lenient_of_strict (ClassFile.framed_of_parse hrewriting.read) hrewriting.renamed
    have hsame : Rewriting resolver.lenient bytes out c c' :=
      ⟨hrewriting.read, hlenient, hrewriting.written⟩
    exact ⟨renamedBytes_eq_ok.2 ⟨c, c', hsame⟩, c, c', p, fieldPairs, p₁, methodPairs, p₂,
      hrewriting, hmembers⟩
  · obtain ⟨c, hread, hrenamed⟩ := renamedBytes_eq_conflict.1 h
    exact renamed_lenient_ne_conflict (ClassFile.framed_of_parse hread) _ _ _ _ hrenamed

/-- A class with a field `c` and one whose name is to be looked for behind its constants. -/
def danglingClass (fields : List Member) : ClassFile :=
  { bareClass with constants := #[.unusable, .utf8 "a", .classRef 1, .utf8 "c", .utf8 "I"], fields }

/-- A resolver that knows the field. -/
def fieldResolver : Resolver where
  dictionary :=
    { source := ⟨"official", false⟩, target := ⟨"intermediary", false⟩,
      fields := ({} : OrderedMap MemberKey String).insert ⟨"a", "c", some "I"⟩ "x" }

def namedField : Member := ⟨0, 3, 4, [0, 0]⟩

def danglingField : Member := ⟨0, 5, 4, [0, 0]⟩

section Dangling

variable {fields : List Member}

/-- The pool of that class. -/
def danglingPool : Pool where
  constants := (danglingClass []).constants
  texts :=
    ((({} : Std.HashMap String UInt16).insertIfNew "a" 1).insertIfNew "c" 3).insertIfNew "I" 4

/-- The pool with the new name of the field. -/
def danglingPoolNamed : Pool where
  constants := danglingPool.constants.push (.utf8 "x")
  texts := danglingPool.texts.insertIfNew "x" 5

/-- Empty tables are renamed to themselves. -/
theorem mapM_renameAttributesOf_empty (hempty : ∀ m ∈ fields, m.attributes = [0, 0])
    (owner : String) :
    fields.mapM (renameAttributesOf resolver owner) p = (.ok fields, p) := by
  induction fields with
  | nil => rfl
  | cons m fields ih =>
    obtain ⟨hm, hrest⟩ := List.forall_mem_cons.1 hempty
    have hfirst : renameAttributesOf resolver owner m p = (.ok m, p) := by
      obtain ⟨access, name, desc, attributes⟩ := m
      obtain rfl : attributes = [0, 0] := hm
      exact bind_of_ok (Attributes.rename_empty _ _ _)
    rw [List.mapM_cons, bind_of_ok hfirst, bind_of_ok (ih hrest)]
    rfl

/-- Nothing is renamed in that class before its fields come to their turns. -/
theorem prepared_danglingClass (fields : List Member)
    (hempty : ∀ m ∈ fields, m.attributes = [0, 0]) :
    prepared fieldResolver (danglingClass fields) danglingPool =
      (.ok ([0, 0], fields, []), danglingPool) := by
  have hconstants : ∀ f : Constant → WithPool Constant,
      (∀ constant ∈ danglingPool.constants.toList.drop 1,
        f constant danglingPool = (.ok constant, danglingPool)) →
        mapConstants f ((danglingClass fields).constants.size - 1) 1 danglingPool =
          (.ok (), danglingPool) := fun f hf => mapConstants_of_fixed hf
  have hlambdas : (liftM (Lambda.implemented (danglingClass fields)) :
      WithPool (List (Option String))) danglingPool = (.ok [], danglingPool) := rfl
  have hmembers := hconstants (renameMemberIn fieldResolver []) (by
    simp only [danglingPool, danglingClass, List.drop_succ_cons, List.drop_zero,
      List.forall_mem_cons, List.not_mem_nil, false_implies, implies_true, and_true]
    exact ⟨rfl, rfl, rfl, rfl⟩)
  have howners := hconstants (renameClassIn fieldResolver) (by
    simp only [danglingPool, danglingClass, List.drop_succ_cons, List.drop_zero,
      List.forall_mem_cons, List.not_mem_nil, false_implies, implies_true, and_true]
    exact ⟨rfl, rfl, rfl, rfl⟩)
  have htable : Attributes.rename fieldResolver (danglingClass fields).name
      (danglingClass fields).attributes danglingPool = (.ok [0, 0], danglingPool) :=
    Attributes.rename_empty _ _ _
  have hfields : fields.mapM (renameAttributesOf fieldResolver (danglingClass fields).name)
      danglingPool = (.ok fields, danglingPool) := mapM_renameAttributesOf_empty hempty _
  have hmethods : ([] : List Member).mapM (renameAttributesOf fieldResolver
      (danglingClass fields).name) danglingPool = (.ok [], danglingPool) := rfl
  rw [prepared, bind_of_ok (withPool_of_ok hlambdas), bind_of_ok (withPool_of_ok hmembers),
    bind_of_ok (withPool_of_ok htable),
    show (danglingClass fields).fields = fields from rfl, bind_of_ok (withPool_of_ok hfields),
    show (danglingClass fields).methods = [] from rfl, bind_of_ok (withPool_of_ok hmethods),
    bind_of_ok (withPool_of_ok howners)]
  rfl

theorem internText_danglingPool :
    Pool.internText "x" danglingPool = (.ok 5, danglingPoolNamed) := by
  have hnew : danglingPool.texts["x"]? = none := by simp [danglingPool]
  rw [Pool.internText, hnew]
  rfl

theorem internText_danglingPoolNamed :
    Pool.internText "I" danglingPoolNamed = (.ok 4, danglingPoolNamed) := by
  have hknown : danglingPoolNamed.texts["I"]? = some 4 := by
    simp [danglingPoolNamed, danglingPool, Std.HashMap.getElem_insertIfNew]
  rw [Pool.internText, hknown]

/-- Once the first field has its new name, the other one has that name too. -/
theorem conflicting_danglingClass :
    Conflicting fieldResolver (danglingClass [namedField, danglingField]) "field" ⟨"x", "I"⟩ := by
  have hprep := prepared_danglingClass [namedField, danglingField]
    (by simp [namedField, danglingField])
  refine ⟨danglingPool, ⟨_, hprep⟩, .inl ⟨rfl, [namedField], danglingField, [],
    [some ⟨"x", "I"⟩], danglingPoolNamed, rfl, ?_, by decide, rfl, List.mem_cons_self⟩⟩
  exact .named rfl internText_danglingPool internText_danglingPoolNamed .nil

/-- If the other field comes first, it has no name in its turn, and gets one afterwards. -/
theorem renamed_danglingClass :
    renamed fieldResolver.strict (danglingClass [danglingField, namedField]) =
      .ok { danglingClass [danglingField, danglingField] with
        constants := danglingPoolNamed.constants } := by
  have hprep := prepared_danglingClass [danglingField, namedField]
    (by simp [namedField, danglingField])
  have hpool : Pool.ofConstants (danglingClass [danglingField, namedField]).constants =
    danglingPool := rfl
  rw [renamed_eq, Resolver.strict, renameAll_eq, hpool, bind_of_ok hprep]
  have hfields : renameMembers "field" (renameField fieldResolver "a") "a" false []
      [danglingField, namedField] danglingPool =
        (.ok [danglingField, danglingField], danglingPoolNamed) := by
    refine (bind_of_ok rfl).trans ((bind_of_ok ?_).trans rfl)
    refine (bind_of_ok rfl).trans ?_
    refine (bind_of_ok (withPool_of_ok internText_danglingPool)).trans ?_
    exact (bind_of_ok (withPool_of_ok internText_danglingPoolNamed)).trans rfl
  exact congrArg Prod.fst ((bind_of_ok hfields).trans rfl)

theorem parse_danglingClass :
    ClassFile.parse (danglingClass [namedField, danglingField]).toBytes =
        .ok (danglingClass [namedField, danglingField]) ∧
      ClassFile.parse (danglingClass [danglingField, namedField]).toBytes =
        .ok (danglingClass [danglingField, namedField]) := by
  constructor <;> decide +kernel

theorem rewriting_danglingClass :
    ∃ out c', Rewriting fieldResolver.strict (danglingClass [danglingField, namedField]).toBytes out
        (danglingClass [danglingField, namedField]) c' ∧
      c'.fields.map (ClassFile.memberNames? c'.constants) = [some ("x", "I"), some ("x", "I")] :=
  ⟨_, _, ⟨parse_danglingClass.2, renamed_danglingClass, rfl⟩, rfl⟩

end Dangling

/-- The order of the two fields decides whether there is a conflict. -/
theorem conflicts_are_reported_iff_danglingClass :
    renamedBytes fieldResolver.strict (danglingClass [namedField, danglingField]).toBytes =
        .error (.conflict "field" "a" "x" "I") ∧
      ∃ out, renamedBytes fieldResolver.strict
          (danglingClass [danglingField, namedField]).toBytes = .ok out ∧
        renamedBytes fieldResolver.lenient
          (danglingClass [danglingField, namedField]).toBytes = .ok out := by
  constructor
  · exact ((conflicts_are_reported_iff fieldResolver _).1 "field" "a" "x" "I").2
      ⟨_, parse_danglingClass.1, rfl, conflicting_danglingClass⟩
  · obtain ⟨out, c', hrewriting, -⟩ := rewriting_danglingClass
    have hstrict := renamedBytes_eq_ok.2 ⟨_, _, hrewriting⟩
    exact ⟨out, hstrict, ((conflicts_are_reported_iff fieldResolver _).2.1 out hstrict).1⟩

/-- Only one of two fields resolves in the class, and still a conflict is reported; in the other
order none is, and both have one name and descriptor in what is written. -/
theorem conflict_behind_constants :
    renamedBytes fieldResolver.strict (danglingClass [namedField, danglingField]).toBytes =
        .error (.conflict "field" "a" "x" "I") ∧
      (danglingClass [namedField, danglingField]).fields.map
          (ClassFile.memberNames? (danglingClass []).constants) = [some ("c", "I"), none] ∧
      ∃ out c', Rewriting fieldResolver.strict
          (danglingClass [danglingField, namedField]).toBytes out
          (danglingClass [danglingField, namedField]) c' ∧
        c'.fields.map (ClassFile.memberNames? c'.constants) =
          [some ("x", "I"), some ("x", "I")] := by
  refine ⟨?_, rfl, rewriting_danglingClass⟩
  rw [renamedBytes_eq_conflict]
  exact ⟨_, parse_danglingClass.1, (renamed_conflict_iff
    (ClassFile.framed_of_parse parse_danglingClass.1)).2 ⟨rfl, conflicting_danglingClass⟩⟩

end ClassRenaming

end JarRemap
