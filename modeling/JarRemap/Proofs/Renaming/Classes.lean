import JarRemap.Proofs.Renaming.Constants
import JarRemap.Proofs.Renaming.Members

/-!
# Renaming all symbols of a class

What a class file refers to at an index is renamed at that index: both passes over the constants
together rename a symbol under the old name of its owner, and nothing that is done between them or
behind them moves a constant. What is written is a class file again, as long as its texts are short
enough.
-/

namespace JarRemap

namespace ClassRenaming

variable {resolver : Resolver} {lambdas : List (Option String)} {p p₁ p₂ p₃ p' : Pool}

/-- The pools between the steps: references to members are renamed, attributes intern their names,
classes are renamed, and members intern theirs. -/
structure Steps (resolver : Resolver) (lambdas : List (Option String))
    (p p₁ p₂ p₃ p' : Pool) : Prop where
  reserved : p.constants[0]? = some .unusable
  members : Pass Constant.isPart (MemberRenamed resolver lambdas p.constants) 1 p.size p p₁
  attributes : p₁.Extends p₂
  between : p₂.Sound
  owners : Pass Constant.isShared (OwnerRenamed resolver p₂.constants) 1 p.size p₂ p₃
  declarations : p₃.Extends p'
  sound : p'.Sound

theorem not_isShared_of_isSymbol {c : Constant} (h : c.isSymbol = true) : c.isShared = false := by
  cases c <;> first | rfl | cases h

theorem className?_eq_some {cs : Constants} {index : UInt16} {o : String} :
    cs.className? index = some o ↔
      ∃ c, cs[index.toNat]? = some c ∧ cs.symbol? c = some (.type o) := by
  constructor
  · intro ho
    unfold Constants.className? at ho
    split at ho
    · next name hname => exact ⟨_, hname, by rw [Constants.symbol?, ho]; rfl⟩
    · cases ho
  · rintro ⟨c, hc, hs⟩
    cases c
    case classRef name =>
      obtain ⟨text, htext, hsame⟩ := Option.map_eq_some_iff.1 hs
      cases hsame
      rw [Constants.className?, Constants.at?, hc]
      exact htext
    case fieldRef | methodRef | interfaceMethodRef =>
      obtain ⟨_, _, _, _, _, hsame⟩ := member?_eq_some hs
      cases hsame
    case methodType | dynamic | invokeDynamic =>
      obtain ⟨_, _, hsame⟩ := Option.map_eq_some_iff.1 hs
      cases hsame
    all_goals cases hs

theorem liftM_eq_ok {α : Type} {x : Except ClassFault α} {a : α}
    (h : (liftM x : WithPool α) p = (.ok a, p')) : x = .ok a ∧ p' = p := by
  cases x with
  | error e => cases h
  | ok b =>
    cases h
    exact ⟨rfl, rfl⟩

/-- A class has its new name after the pass over the classes. -/
theorem className?_owners {high : Nat}
    (hpass : Pass Constant.isShared (OwnerRenamed resolver p.constants) 1 high p p')
    (hrange : ∀ i c, p.constants[i]? = some c → c.isSymbol = true → 1 ≤ i ∧ i < high)
    {index : UInt16} {o : String} (ho : p.constants.className? index = some o) :
    p'.constants.className? index = some (Symbol.newOwner resolver o) := by
  unfold Constants.className? at ho
  split at ho
  · next name hname =>
    obtain ⟨hlow, hhigh⟩ := hrange _ _ hname rfl
    obtain ⟨c', hc', -, hin, -⟩ := hpass.old _ _ hname
    obtain ⟨name', rfl, hname'⟩ := (hin hlow hhigh).1 name o rfl ho
    rw [Constants.className?, Constants.at?, hc']
    exact hname'
  · cases ho

/-- A symbol has a new owner after the pass over the classes. -/
theorem symbol?_owners {high : Nat}
    (hpass : Pass Constant.isShared (OwnerRenamed resolver p.constants) 1 high p p')
    (hrange : ∀ i c, p.constants[i]? = some c → c.isSymbol = true → 1 ≤ i ∧ i < high)
    {c c' : Constant} (hc : OwnerRenamed resolver p.constants p'.constants c c') {s : Symbol}
    (hs : p.constants.symbol? c = some s) :
    p'.constants.symbol? c' = some (s.renameOwner resolver) := by
  have hmember : ∀ {make owner pair}, p.constants.member? make owner pair = some s →
      ∃ o n d, s = make o n d ∧ p'.constants.member? make owner pair =
        some (make (Symbol.newOwner resolver o) n d) := by
    intro make owner pair hs
    obtain ⟨o, n, d, ho, hp, rfl⟩ := member?_eq_some hs
    exact ⟨o, n, d, rfl, member?_of_eq make (className?_owners hpass hrange ho)
      (hpass.keeps.nameAndType? hp)⟩
  obtain ⟨hclass, hother⟩ := hc
  cases c
  case classRef name =>
    obtain ⟨text, htext, rfl⟩ := Option.map_eq_some_iff.1 hs
    obtain ⟨name', rfl, hname'⟩ := hclass name text rfl htext
    rw [Constants.symbol?, hname']
    rfl
  case fieldRef owner pair | methodRef owner pair | interfaceMethodRef owner pair =>
    obtain rfl := hother fun _ h => (by cases h)
    obtain ⟨o, n, d, rfl, hs'⟩ := hmember hs
    exact hs'
  case methodType desc =>
    obtain rfl := hother fun _ h => (by cases h)
    obtain ⟨text, htext, rfl⟩ := Option.map_eq_some_iff.1 hs
    rw [Constants.symbol?, hpass.keeps.utf8? htext]
    rfl
  case dynamic bootstrap pair | invokeDynamic bootstrap pair =>
    obtain rfl := hother fun _ h => (by cases h)
    obtain ⟨pair, hpair, rfl⟩ := Option.map_eq_some_iff.1 hs
    rw [Constants.symbol?, hpass.keeps.nameAndType? hpair]
    rfl
  all_goals cases hs

namespace Steps

variable (h : Steps resolver lambdas p p₁ p₂ p₃ p')
include h

/-- Every symbol stands within the range of the passes, also after others interned behind it. -/
theorem range {i : Nat} {c : Constant} (hc : p₂.constants[i]? = some c) (hsymbol : c.isSymbol = true) :
    1 ≤ i ∧ i < p.size := by
  have hnot := not_isShared_of_isSymbol hsymbol
  have hlt : i < p.size := by
    by_contra hi
    have hshared : c.isShared = true := by
      by_cases hsize : p₁.size ≤ i
      · exact h.attributes.isShared hsize hc
      · have hc₁ : p₁.constants[i]? = some _ := Array.getElem?_eq_getElem (Nat.lt_of_not_le hsize)
        cases hc.symm.trans (h.attributes.keeps (fun _ => true) i _ hc₁ rfl)
        exact h.members.new i _ (Nat.le_of_not_lt hi) hc₁
    rw [hnot] at hshared
    cases hshared
  refine ⟨Nat.pos_of_ne_zero ?_, hlt⟩
  rintro rfl
  obtain ⟨c₁, hc₁, -, -, hout⟩ := h.members.old 0 _ h.reserved
  rw [hout (.inl Nat.one_pos)] at hc₁
  cases hc.symm.trans (h.attributes.keeps (fun _ => true) 0 _ hc₁ rfl)
  cases hsymbol

/-- The constant at an index through all steps. -/
theorem at_index {i : Nat} {c : Constant} (hc : p.constants[i]? = some c) :
    ∃ c₁ c', p₂.constants[i]? = some c₁ ∧ p'.constants[i]? = some c' ∧
      (1 ≤ i → MemberRenamed resolver lambdas p.constants p₁.constants c c₁ ∧
        OwnerRenamed resolver p₂.constants p₃.constants c₁ c') ∧ (i = 0 → c' = c) := by
  have hlt : i < p.size := (Array.getElem?_eq_some_iff.1 hc).1
  obtain ⟨c₁, hc₁, -, hin₁, hout₁⟩ := h.members.old i c hc
  have hc₂ := h.attributes.keeps (fun _ => true) i c₁ hc₁ rfl
  obtain ⟨c', hc', -, hin', hout'⟩ := h.owners.old i c₁ hc₂
  refine ⟨c₁, c', hc₂, h.declarations.keeps (fun _ => true) i c' hc' rfl, ?_, ?_⟩
  · exact fun hi => ⟨hin₁ hi hlt, hin' hi hlt⟩
  · intro hi
    rw [hout' (.inl (by omega)), hout₁ (.inl (by omega))]

/-- A symbol is renamed at its index. -/
theorem symbol {i : Nat} {c : Constant} {s : Symbol} (hc : p.constants[i]? = some c)
    (hs : p.constants.symbol? c = some s) :
    ∃ c', p'.constants[i]? = some c' ∧ p'.constants.symbol? c' = some (s.renamed resolver lambdas) := by
  obtain ⟨c₁, c', hc₁, hc', hchange, hsame⟩ := h.at_index hc
  refine ⟨c', hc', ?_⟩
  have hi : 1 ≤ i := by
    refine Nat.pos_of_ne_zero ?_
    rintro rfl
    rw [h.reserved] at hc
    cases hc
    cases hs
  obtain ⟨hmember, howner⟩ := hchange hi
  have hs₁ := (h.attributes.keeps Constant.isPart).symbol? (hmember.1 s hs)
  have hs' := symbol?_owners h.owners (fun _ _ hc hsymbol => h.range hc hsymbol) howner hs₁
  exact (h.declarations.keeps Constant.isPart).symbol? hs'

/-- A constant that stands for no symbol stays at its index. -/
theorem other {i : Nat} {c : Constant} (hc : p.constants[i]? = some c) (hother : c.isSymbol = false) :
    p'.constants[i]? = some c := by
  obtain ⟨c₁, c', -, hc', hchange, hsame⟩ := h.at_index hc
  rw [hc']
  by_cases hi : i = 0
  · rw [hsame hi]
  · obtain ⟨hmember, howner⟩ := hchange (Nat.pos_of_ne_zero hi)
    obtain rfl := hmember.2 hother
    rw [howner.2 fun name hname => by rw [hname] at hother; cases hother]

/-- A class has its new name at its index. -/
theorem className? {index : UInt16} {o : String} (ho : p.constants.className? index = some o) :
    p'.constants.className? index = some (Symbol.newOwner resolver o) := by
  rw [className?_eq_some] at ho ⊢
  obtain ⟨c, hc, hs⟩ := ho
  exact h.symbol hc hs

/-- Plain slots are appended to the slots, which stay. -/
theorem slots : ∃ count, p'.constants.toList.map Constant.slot =
    p.constants.toList.map Constant.slot ++ List.replicate count .plain := by
  have hextends : ∀ {a b : Pool}, b.Sound → a.Extends b →
      ∃ count, b.constants.toList.map Constant.slot =
        a.constants.toList.map Constant.slot ++ List.replicate count .plain :=
    fun {a b} hsound hab => by
      have hpass : Pass Constant.isShared (fun _ _ _ => True) 0 0 a b :=
        .of_extends hsound hab fun _ _ hlt => by omega
      exact hpass.slots
  obtain ⟨a, ha⟩ := h.members.slots
  obtain ⟨b, hb⟩ := hextends h.between h.attributes
  obtain ⟨c, hc⟩ := h.owners.slots
  obtain ⟨d, hd⟩ := hextends h.sound h.declarations
  exact ⟨a + b + c + d, by rw [hd, hc, hb, ha]; simp⟩

theorem slotted {rest : List Constant} (hp : p.constants.toList = .unusable :: rest)
    (hslots : Slotted (rest.map Constant.slot)) :
    ∃ rest', p'.constants.toList = .unusable :: rest' ∧ Slotted (rest'.map Constant.slot) := by
  obtain ⟨count, hcount⟩ := h.slots
  rw [hp, List.map_cons, List.cons_append] at hcount
  obtain ⟨first, rest', hp', hfirst, hrest⟩ := List.map_eq_cons_iff.1 hcount
  refine ⟨rest', ?_, hrest ▸ hslots.append_plain count⟩
  rw [hp', Constant.slot_eq_unusable.1 (hfirst.trans (Constant.slot_eq_unusable.2 rfl))]

end Steps

/-- The runs that renaming a class file is made of, one pool after the other. -/
structure Walk (resolver : Resolver) (c c' : ClassFile) (lambdas : List (Option String))
    (fields₁ methods₁ : List Member) (p p₁ p₂ p₃ p₄ p₅ p₆ p' : Pool) : Prop where
  implemented : Lambda.implemented c = .ok lambdas
  references :
    mapConstants (renameMemberIn resolver lambdas) (c.constants.size - 1) 1 p = (.ok (), p₁)
  table : Attributes.rename resolver c.name c.attributes p₁ = (.ok c'.attributes, p₂)
  fieldTables : c.fields.mapM (renameAttributesOf resolver c.name) p₂ = (.ok fields₁, p₃)
  methodTables : c.methods.mapM (renameAttributesOf resolver c.name) p₃ = (.ok methods₁, p₄)
  classes : mapConstants (renameClassIn resolver) (c.constants.size - 1) 1 p₄ = (.ok (), p₅)
  fields : renameMembers "field" (renameField resolver c.name) c.name resolver.ignoreConflicts []
    fields₁ p₅ = (.ok c'.fields, p₆)
  methods : renameMembers "method" (renameMethod resolver c.name) c.name resolver.ignoreConflicts []
    methods₁ p₆ = (.ok c'.methods, p')
  rest : c' = { c with
    constants := p'.constants, attributes := c'.attributes, fields := c'.fields,
    methods := c'.methods }

theorem walk_of_renameAll {c c' : ClassFile} (hrun : renameAll resolver c p = (.ok c', p')) :
    ∃ lambdas fields methods p₁ p₂ p₃ p₄ p₅ p₆,
      Walk resolver c c' lambdas fields methods p p₁ p₂ p₃ p₄ p₅ p₆ p' := by
  obtain ⟨lambdas, p₀, hlambdas, hrun⟩ := bind_eq_ok hrun
  obtain ⟨hlambdas, hp₀⟩ := liftM_eq_ok (withPool_eq_ok hlambdas)
  rw [hp₀] at hrun
  obtain ⟨⟨⟩, p₁, hreferences, hrun⟩ := bind_eq_ok hrun
  obtain ⟨table, p₂, htable, hrun⟩ := bind_eq_ok hrun
  obtain ⟨fields, p₃, hfieldTables, hrun⟩ := bind_eq_ok hrun
  obtain ⟨methods, p₄, hmethodTables, hrun⟩ := bind_eq_ok hrun
  obtain ⟨⟨⟩, p₅, hclasses, hrun⟩ := bind_eq_ok hrun
  obtain ⟨fields', p₆, hfields, hrun⟩ := bind_eq_ok hrun
  obtain ⟨methods', p₇, hmethods, hrun⟩ := bind_eq_ok hrun
  obtain ⟨_, _, hget, hrun⟩ := bind_eq_ok hrun
  cases hget
  cases hrun
  exact ⟨lambdas, fields, methods, p₁, p₂, p₃, p₄, p₅, p₆, hlambdas, withPool_eq_ok hreferences,
    withPool_eq_ok htable, withPool_eq_ok hfieldTables, withPool_eq_ok hmethodTables,
    withPool_eq_ok hclasses, hfields, hmethods, rfl⟩

/-- What renaming a class file does, one step after the other. -/
theorem steps_of_renameAll {c c' : ClassFile} (hsound : p.Sound) (hp : p.constants = c.constants)
    (hreserved : c.constants[0]? = some .unusable)
    (hrun : renameAll resolver c p = (.ok c', p')) :
    ∃ lambdas p₁ p₂ p₃, Lambda.implemented c = .ok lambdas ∧
      Steps resolver lambdas p p₁ p₂ p₃ p' ∧
      c' = { c with
        constants := p'.constants, attributes := c'.attributes, fields := c'.fields,
        methods := c'.methods } ∧
      IsAttributeTable c'.attributes ∧
      List.Forall₂ (DeclarationRenamed (renameField resolver c.name) p.constants p'.constants)
        c.fields c'.fields ∧
      List.Forall₂ (DeclarationRenamed (renameMethod resolver c.name) p.constants p'.constants)
        c.methods c'.methods := by
  have hsize : 1 + (c.constants.size - 1) = p.size := by
    have hlt := (Array.getElem?_eq_some_iff.1 hreserved).1
    rw [Pool.size, hp]
    omega
  obtain ⟨lambdas, fields₁, methods₁, p₁, pa, pf, p₂, p₃, p₄, hwalk⟩ := walk_of_renameAll hrun
  have hfirst := (changes_renameMemberIn resolver lambdas p.constants).pass_mapConstants _ 1 hsound
    (.refl _ _) hwalk.references
  rw [hsize] at hfirst
  obtain ⟨hsounda, hextendsa, htable⟩ := Attributes.interns_rename resolver c.name c.attributes _ _ _
    hfirst.sound hwalk.table
  obtain ⟨hsoundf, hextendsf, hfields₁⟩ := interns_renameAttributes c.name c.fields _ _ _ hsounda
    hwalk.fieldTables
  obtain ⟨hsound₂, hextends₂, hmethods₁⟩ := interns_renameAttributes c.name c.methods _ _ _ hsoundf
    hwalk.methodTables
  have hsecond := (changes_renameClassIn resolver p₂.constants).pass_mapConstants _ 1 hsound₂
    (.refl _ _) hwalk.classes
  rw [hsize] at hsecond
  obtain ⟨hsound₄, hextends₄, hfields⟩ := renameMembers_forall₂ hsecond.sound hwalk.fields
  obtain ⟨hsound₅, hextends₅, hmethods⟩ := renameMembers_forall₂ hsound₄ hwalk.methods
  have hsteps : Steps resolver lambdas p p₁ p₂ p₃ p' := by
    refine ⟨hp ▸ hreserved, hfirst, (hextendsa.trans hextendsf).trans hextends₂, hsound₂, hsecond,
      hextends₄.trans hextends₅, hsound₅⟩
  have hkeeps : p.constants.Keeps Constant.isShared p₃.constants :=
    ((hfirst.keeps.mono fun _ => Constant.isPart_of_isShared).trans
      (hsteps.attributes.keeps _)).trans hsecond.keeps
  refine ⟨lambdas, p₁, p₂, p₃, hwalk.implemented, hsteps, hwalk.rest, htable, ?_, ?_⟩
  · refine declarationsRenamed hfields₁ (hfields.imp fun _ _ hm => ?_)
    exact hm.mono hkeeps (hextends₅.keeps _)
  · refine declarationsRenamed hmethods₁ (hmethods.imp fun _ _ hm => ?_)
    exact hm.mono (hkeeps.trans (hextends₄.keeps _)) (.refl _ _)

/-- What a class file stands for at an index. -/
def symbolAt? (c : ClassFile) (i : Nat) : Option Symbol := c.constants[i]?.bind c.constants.symbol?

/-- A class file in which every symbol has its new name, and everything else is as it was. The
lambdas are the methods that those of the class implement, by bootstrap method. -/
structure SymbolsRenamed (resolver : Resolver) (lambdas : List (Option String))
    (c c' : ClassFile) : Prop where
  symbols : ∀ i s, symbolAt? c i = some s → symbolAt? c' i = some (s.renamed resolver lambdas)
  others : ∀ (i : Nat) (constant : Constant), c.constants[i]? = some constant →
    constant.isSymbol = false → c'.constants[i]? = some constant
  name : c'.name = Symbol.newOwner resolver c.name
  fields : List.Forall₂
    (DeclarationRenamed (renameField resolver c.name) c.constants c'.constants) c.fields c'.fields
  methods : List.Forall₂
    (DeclarationRenamed (renameMethod resolver c.name) c.constants c'.constants) c.methods c'.methods
  rest : c' = { c with
    constants := c'.constants, attributes := c'.attributes, fields := c'.fields,
    methods := c'.methods }

theorem wellFormed_of_declarations {c : ClassFile} {rename rename' : String → String → NewPair}
    {cs : Constants} {fields methods : List Member} (h : c.Framed)
    (htable : IsAttributeTable c.attributes)
    (hfields : List.Forall₂ (DeclarationRenamed rename cs c.constants) fields c.fields)
    (hmethods : List.Forall₂ (DeclarationRenamed rename' cs c.constants) methods c.methods) :
    c.WellFormed := by
  have htables : ∀ {rename : String → String → NewPair} {members members' : List Member},
      List.Forall₂ (DeclarationRenamed rename cs c.constants) members members' →
      ∀ m ∈ members', IsAttributeTable m.attributes := by
    intro rename members members' h
    induction h with
    | nil => simp
    | cons hm _ ih => exact List.forall_mem_cons.2 ⟨hm.attributes, ih⟩
  refine ⟨h, fun m hm => ?_, htable⟩
  rcases List.mem_append.1 hm with hm | hm
  · exact htables hfields m hm
  · exact htables hmethods m hm

/-- Renaming the symbols of a class file that is framed gives one that is well formed. -/
theorem renamed_spec {c c' : ClassFile} (hframed : c.Framed) (h : renamed resolver c = .ok c') :
    c'.WellFormed ∧
      ∃ lambdas, Lambda.implemented c = .ok lambdas ∧ SymbolsRenamed resolver lambdas c c' := by
  obtain ⟨hsound, hp⟩ := Pool.sound_ofConstants hframed.size
  obtain ⟨rest, hrest, hslots⟩ := hframed.constants
  have hreserved : c.constants[0]? = some .unusable := by
    rw [← Array.getElem?_toList, hrest]
    rfl
  change (renameAll resolver c (Pool.ofConstants c.constants)).1 = .ok c' at h
  generalize Pool.ofConstants c.constants = p at hsound hp h
  rcases hrun : renameAll resolver c p with ⟨r, p'⟩
  have hr : r = .ok c' := by
    rwa [hrun] at h
  rw [hr] at hrun
  obtain ⟨lambdas, p₁, p₂, p₃, hlambdas, hsteps, hc', htable, hfields, hmethods⟩ :=
    steps_of_renameAll hsound hp hreserved hrun
  have hconstants : c'.constants = p'.constants := by rw [hc']
  have hthis : c'.thisClass = c.thisClass := by rw [hc']
  rw [← hconstants, hp] at hfields hmethods
  obtain ⟨name, hname⟩ := Option.isSome_iff_exists.1 hframed.named
  have hname' : c'.constants.className? c'.thisClass = some (Symbol.newOwner resolver name) := by
    rw [hconstants, hthis]
    exact hsteps.className? (hp ▸ hname)
  have hframed' : c'.Framed := by
    refine ⟨?_, ?_, ?_, ?_, ?_, ?_⟩
    · rw [hconstants]
      exact hsteps.slotted (hp ▸ hrest) hslots
    · rw [hconstants]
      exact hsteps.sound.size
    · rw [hc']
      exact hframed.interfaces
    · rw [← hfields.length_eq]
      exact hframed.fields
    · rw [← hmethods.length_eq]
      exact hframed.methods
    · rw [hname']
      rfl
  refine ⟨wellFormed_of_declarations hframed' htable hfields hmethods, lambdas, hlambdas, ?_, ?_, ?_,
    hfields, hmethods, hconstants ▸ hc'⟩
  · intro i s hs
    obtain ⟨constant, hconstant, hs⟩ := Option.bind_eq_some_iff.1 hs
    obtain ⟨constant', hconstant', hs'⟩ := hsteps.symbol (hp ▸ hconstant) (hp ▸ hs)
    rw [symbolAt?, hconstants, hconstant']
    exact hs'
  · intro i constant hconstant hother
    rw [hconstants]
    exact hsteps.other (hp ▸ hconstant) hother
  · rw [ClassFile.name, ClassFile.name, hname', hname]
    rfl

/-- A class file that is read from bytes, renamed and written. -/
structure Rewriting (resolver : Resolver) (bytes out : List UInt8) (c c' : ClassFile) : Prop where
  read : ClassFile.parse bytes = .ok c
  renamed : renamed resolver c = .ok c'
  written : c'.toBytes = out

theorem Rewriting.unique {bytes out out' : List UInt8} {c c' d d' : ClassFile}
    (h : Rewriting resolver bytes out c c') (h' : Rewriting resolver bytes out' d d') :
    d = c ∧ d' = c' := by
  obtain rfl := Except.ok.inj (h'.read.symm.trans h.read)
  exact ⟨rfl, Except.ok.inj (h'.renamed.symm.trans h.renamed)⟩

theorem renamedBytes_eq_ok {bytes out : List UInt8} :
    renamedBytes resolver bytes = .ok out ↔ ∃ c c', Rewriting resolver bytes out c c' := by
  have hrun : renamedBytes resolver bytes =
      ((ClassFile.parse bytes).mapError .classFile).bind fun c =>
        (renamed resolver c).bind fun c' => .ok c'.toBytes := rfl
  rw [hrun]
  constructor
  · intro h
    cases hread : ClassFile.parse bytes with
    | error e =>
      rw [hread] at h
      cases h
    | ok c =>
      rw [hread] at h
      change (renamed resolver c).bind _ = _ at h
      cases hrenamed : renamed resolver c with
      | error e =>
        rw [hrenamed] at h
        cases h
      | ok c' =>
        rw [hrenamed] at h
        exact ⟨c, c', hread, hrenamed, Except.ok.inj h⟩
  · rintro ⟨c, c', hread, hrenamed, rfl⟩
    rw [hread]
    change (renamed resolver c).bind _ = _
    rw [hrenamed]
    rfl

/-- A class file that refers to nothing but its own name. -/
def bareClass : ClassFile :=
  ⟨0, 52, #[.unusable, .utf8 "a", .classRef 1], 0, 2, 0, [], [], [], [0, 0]⟩

/-- The pool of the bare class, whatever texts it has noted. -/
def barePool (texts : Std.HashMap String UInt16) : Pool := ⟨bareClass.constants, texts, {}⟩

/-- A resolver that has a new name for the bare class. -/
def bareResolverTo (name : String) : Resolver where
  dictionary :=
    { source := ⟨"official", false⟩, target := ⟨"intermediary", false⟩,
      classes := ({} : OrderedMap String String).insert "a" name }

/-- The bare class under a new name. -/
def bareClassTo (name : String) : ClassFile :=
  { bareClass with constants := #[.unusable, .utf8 "a", .classRef 3, .utf8 name] }

/-- In a class without members, whose table stays, only the pass over the classes changes anything. -/
theorem renameAll_of_owners {resolver : Resolver} {c : ClassFile} {lambdas : List (Option String)}
    {p₁ : Pool} (hfields : c.fields = []) (hmethods : c.methods = [])
    (hlambdas : Lambda.implemented c = .ok lambdas)
    (hmembers : mapConstants (renameMemberIn resolver lambdas) (c.constants.size - 1) 1 p =
      (.ok (), p))
    (htable : Attributes.rename resolver c.name c.attributes p = (.ok c.attributes, p₁))
    (howners : mapConstants (renameClassIn resolver) (c.constants.size - 1) 1 p₁ = (.ok (), p')) :
    renameAll resolver c p = (.ok { c with constants := p'.constants }, p') := by
  have hlifted : (liftM (Lambda.implemented c) : WithPool (List (Option String))) p =
      (.ok lambdas, p) := by
    rw [hlambdas]
    rfl
  have hnone : (([] : List Member).mapM (renameAttributesOf resolver c.name)) p₁ = (.ok [], p₁) :=
    rfl
  unfold renameAll
  rw [bind_of_ok (withPool_of_ok hlifted), bind_of_ok (withPool_of_ok hmembers),
    bind_of_ok (withPool_of_ok htable), hfields, hmethods, bind_of_ok (withPool_of_ok hnone),
    bind_of_ok (withPool_of_ok hnone), bind_of_ok (withPool_of_ok howners)]
  rfl

/-- A class gets an index of its new name. -/
theorem renameClassIn_bareResolverTo {name : String} {index : UInt16} (hname : name ≠ "a")
    (hold : p.constants.utf8? 1 = some "a") (hintern : Pool.internText name p = (.ok index, p')) :
    renameClassIn (bareResolverTo name) (.classRef 1) p = (.ok (.classRef index), p') := by
  have hrenamed : (bareResolverTo name).newClass? "a" = some name := by
    change (some name).filter (· ≠ "a") = some name
    simp [hname]
  have htext : renameText 1 (bareResolverTo name).newClass? p = (.ok index, p') := by
    rw [renameText, bind_of_ok (show (get : WithPool Pool) p = (.ok p, p) from rfl), hold]
    dsimp only
    rw [hrenamed]
    dsimp only
    rw [if_neg hname, hintern]
  exact bind_of_ok htext

theorem renameAll_bareClassTo {name : String} {texts : Std.HashMap String UInt16} (hname : name ≠ "a")
    (hnew : texts[name]? = none) :
    renameAll (bareResolverTo name) bareClass (barePool texts) = (.ok (bareClassTo name),
      ⟨(bareClassTo name).constants, texts.insertIfNew name 3, {}⟩) := by
  have hintern : Pool.internText name (barePool texts) =
      (.ok 3, ⟨bareClass.constants.push (.utf8 name), texts.insertIfNew name 3, {}⟩) := by
    rw [Pool.internText, barePool, hnew]
    rfl
  have hclass := renameClassIn_bareResolverTo hname (show _ = some "a" from rfl) hintern
  have howners : mapConstants (renameClassIn (bareResolverTo name)) (bareClass.constants.size - 1) 1
      (barePool texts) =
      (.ok (), ⟨(bareClassTo name).constants, texts.insertIfNew name 3, {}⟩) :=
    (mapConstants_succ rfl rfl).trans (mapConstants_succ rfl hclass)
  exact renameAll_of_owners rfl rfl (show Lambda.implemented bareClass = .ok [] from rfl) rfl
    (Attributes.rename_empty _ _ _) howners

theorem rewriting_bareClassTo {name : String} (hname : name ≠ "a") :
    Rewriting (bareResolverTo name) bareClass.toBytes (bareClassTo name).toBytes bareClass
      (bareClassTo name) := by
  refine ⟨by rfl, ?_, rfl⟩
  have hpool : Pool.ofConstants bareClass.constants =
      barePool (({} : Std.HashMap String UInt16).insertIfNew "a" 1) := rfl
  have hnew : (({} : Std.HashMap String UInt16).insertIfNew "a" 1)[name]? = none := by
    rw [Std.HashMap.getElem?_insertIfNew]
    simp [hname.symm]
  change (renameAll (bareResolverTo name) bareClass (Pool.ofConstants bareClass.constants)).1 = _
  rw [hpool, renameAll_bareClassTo hname hnew]

end ClassRenaming

end JarRemap
