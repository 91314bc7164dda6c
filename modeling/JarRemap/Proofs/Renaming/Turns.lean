import Mathlib.Data.List.Nodup
import Mathlib.Data.List.ReduceOption
import JarRemap.Proofs.ClassFile.Interning
import JarRemap.Proofs.Renaming.Constants
import JarRemap.Proofs.Renaming.Members

/-!
# Members in their turns

The members of a class come to their turns one after the other, and what those before are called now
is kept to tell the next ones from them. A member is read when its turn comes. Where the class file
had a text, it is still the same one, whatever was renamed before; but behind the constants of the
class file a member finds what was appended by then.
-/

namespace JarRemap

namespace ClassRenaming

variable {resolver : Resolver} {c : ClassFile} {rename : String → String → NewPair} {p p' : Pool}

/-! ### Texts that stay -/

/-- Later constants, with the same texts at the indexes of earlier ones. -/
structure TextsStay (cs cs' : Constants) : Prop where
  size : cs.size ≤ cs'.size
  texts : ∀ index : UInt16, index.toNat < cs.size → cs'.utf8? index = cs.utf8? index

/-- No constant becomes a text. -/
def NoNewText (c c' : Constant) : Prop := ∀ text, c' = .utf8 text → c = .utf8 text

theorem TextsStay.trans {a b d : Constants} (hab : TextsStay a b) (hbd : TextsStay b d) :
    TextsStay a d :=
  ⟨hab.size.trans hbd.size, fun index hindex =>
    (hbd.texts index (hindex.trans_le hab.size)).trans (hab.texts index hindex)⟩

/-- Texts stay where constants stay, and no constant becomes a text. -/
theorem textsStay_of_old {cs cs' : Constants}
    (h : ∀ (i : Nat) (c : Constant), cs[i]? = some c → ∃ c', cs'[i]? = some c' ∧ NoNewText c c')
    (hkeeps : cs.Keeps Constant.isShared cs') : TextsStay cs cs' := by
  have hsize : cs.size ≤ cs'.size := by
    by_contra hlt
    obtain ⟨c', hc', -⟩ := h cs'.size _ (Array.getElem?_eq_getElem (Nat.lt_of_not_le hlt))
    exact Nat.lt_irrefl _ (Array.getElem?_eq_some_iff.1 hc').1
  refine ⟨hsize, fun index hindex => ?_⟩
  cases htext : cs.utf8? index with
  | some text => exact hkeeps.utf8? htext
  | none =>
    obtain ⟨c', hc', hnew⟩ := h index.toNat _ (Array.getElem?_eq_getElem hindex)
    refine Option.eq_none_iff_forall_ne_some.2 fun text htext' => ?_
    obtain rfl : Constant.utf8 text = c' :=
      Option.some.inj ((Pool.at?_of_utf8? htext').symm.trans hc')
    have hold : cs.at? index = some (.utf8 text) := by
      rw [Constants.at?, Array.getElem?_eq_getElem hindex, hnew text rfl]
    rw [Constants.utf8?, hold] at htext
    cases htext

theorem textsStay_of_extends (h : p.Extends p') : TextsStay p.constants p'.constants :=
  textsStay_of_old (fun i c hc => ⟨c, h.keeps (fun _ => true) i c hc rfl, fun _ => id⟩) (h.keeps _)

/-- A pass whose changes make no texts out of constants. -/
theorem Changes.textsStay {kind : Constant → Bool} {R : Constants → Constant → Constant → Prop}
    {start : Constants} {f : Constant → WithPool Constant} (h : Changes kind R start f)
    (hf : ∀ {c p c' p'}, f c p = (.ok c', p') → NoNewText c c') (count index : Nat)
    (hsound : p.Sound) (hstart : start.Keeps kind p.constants)
    (hrun : mapConstants f count index p = (.ok (), p')) :
    TextsStay p.constants p'.constants := by
  have hchanges : Changes kind (fun _ c c' => NoNewText c c') start f := by
    refine ⟨h.shared, fun hR _ => hR, fun hsound hstart hrun => ?_⟩
    obtain ⟨hsound', hextends, -, hkind, hslot⟩ := h.run hsound hstart hrun
    exact ⟨hsound', hextends, hf hrun, hkind, hslot⟩
  have hpass := hchanges.pass_mapConstants count index hsound hstart hrun
  refine textsStay_of_old (fun i c hc => ?_) (hpass.keeps.mono h.shared)
  obtain ⟨c', hc', -, hin, hout⟩ := hpass.old i c hc
  refine ⟨c', hc', ?_⟩
  by_cases hrange : index ≤ i ∧ i < index + count
  · exact hin hrange.1 hrange.2
  · rw [hout (by omega)]
    exact fun _ => id

theorem noNewText_renameMemberIn {lambdas : List (Option String)} {c c' : Constant}
    (hrun : renameMemberIn resolver lambdas c p = (.ok c', p')) : NoNewText c c' := by
  cases c
  case fieldRef | methodRef | interfaceMethodRef | invokeDynamic | dynamic | methodType =>
    obtain ⟨_, _, -, hrun⟩ := bind_eq_ok hrun
    cases hrun
    exact fun _ => nofun
  all_goals
    cases hrun
    exact fun _ => id

theorem noNewText_renameClassIn {c c' : Constant}
    (hrun : renameClassIn resolver c p = (.ok c', p')) : NoNewText c c' := by
  cases c
  case classRef =>
    obtain ⟨_, _, -, hrun⟩ := bind_eq_ok hrun
    cases hrun
    exact fun _ => nofun
  all_goals
    cases hrun
    exact fun _ => id

/-- A pool that a class file was put in, and then only renamed and appended to. -/
structure After (c : ClassFile) (p : Pool) : Prop where
  sound : p.Sound
  stay : TextsStay c.constants p.constants

theorem After.extends (h : After c p) (hsound : p'.Sound) (hextends : p.Extends p') : After c p' :=
  ⟨hsound, h.stay.trans (textsStay_of_extends hextends)⟩

/-! ### Turns -/

/-- The text at an index: what the class file had there, and behind all of it what is there now. -/
def textInTurn? (c : ClassFile) (now : Constants) (index : UInt16) : Option String :=
  if index.toNat < c.constants.size then c.constants.utf8? index else now.utf8? index

/-- What a member is to be called, if it has a name and a descriptor when its turn comes. -/
def newPairInTurn? (c : ClassFile) (rename : String → String → NewPair) (now : Constants)
    (m : Member) : Option NewPair := do
  return rename (← textInTurn? c now m.name) (← textInTurn? c now m.desc)

/-- Members get their new names one after the other, with a pool for each of them before and after.
A member that has no names in its turn is passed over. -/
inductive Turns (c : ClassFile) (rename : String → String → NewPair) :
    Pool → List Member → List (Option NewPair) → Pool → Prop where
  | nil {p : Pool} : Turns c rename p [] [] p
  | passed {p p' : Pool} {m rest pairs} (hnone : newPairInTurn? c rename p.constants m = none)
      (hrest : Turns c rename p rest pairs p') : Turns c rename p (m :: rest) (none :: pairs) p'
  | named {p p₁ p₂ p' : Pool} {m r name desc rest pairs}
      (hpair : newPairInTurn? c rename p.constants m = some r)
      (hname : Pool.internText r.name p = (.ok name, p₁))
      (hdesc : Pool.internText r.desc p₁ = (.ok desc, p₂))
      (hrest : Turns c rename p₂ rest pairs p') :
      Turns c rename p (m :: rest) (some r :: pairs) p'

/-- The first member that gets the name and the descriptor of a member before it. -/
def FirstRepeated (c : ClassFile) (rename : String → String → NewPair) (p : Pool)
    (members : List Member) (r : NewPair) : Prop :=
  ∃ before m after pairs p', members = before ++ m :: after ∧ Turns c rename p before pairs p' ∧
    pairs.reduceOption.Nodup ∧ newPairInTurn? c rename p'.constants m = some r ∧ some r ∈ pairs

/-- A member that has names in the class file has them in its turn, whatever was renamed before. -/
theorem newPairInTurn?_of_memberNames? {m : Member} {n d : String}
    (h : ClassFile.memberNames? c.constants m = some (n, d)) (now : Constants) :
    newPairInTurn? c rename now m = some (rename n d) := by
  have htext : ∀ {index : UInt16} {text : String}, c.constants.utf8? index = some text →
      textInTurn? c now index = some text := by
    intro index text htext
    have hlt := (Array.getElem?_eq_some_iff.1 (Pool.at?_of_utf8? htext)).1
    rw [textInTurn?, if_pos hlt, htext]
  obtain ⟨hn, hd⟩ := memberNames?_eq_some.1 h
  rw [newPairInTurn?, htext hn, htext hd]
  rfl

/-- Members that have names in the class file are renamed by these names. -/
theorem Turns.original {members : List Member} {pairs : List (Option NewPair)}
    (h : Turns c rename p members pairs p') {i : Nat} {m : Member} {n d : String}
    (hm : members[i]? = some m) (hnames : ClassFile.memberNames? c.constants m = some (n, d)) :
    pairs[i]? = some (some (rename n d)) := by
  induction h generalizing i with
  | nil => cases hm
  | passed hnone _ ih =>
    cases i with
    | zero =>
      cases hm
      exact absurd (hnone.symm.trans (newPairInTurn?_of_memberNames? hnames _)) (by simp)
    | succ i => exact ih hm
  | named hpair _ _ _ ih =>
    cases i with
    | zero =>
      cases hm
      exact congrArg some (hpair.symm.trans (newPairInTurn?_of_memberNames? hnames _))
    | succ i => exact ih hm

theorem After.textInTurn? (h : After c p) (index : UInt16) :
    textInTurn? c p.constants index = p.constants.utf8? index := by
  rw [ClassRenaming.textInTurn?]
  split
  · next hindex => exact (h.stay.texts index hindex).symm
  · rfl

theorem After.newPairInTurn? (h : After c p) (m : Member) :
    newPairInTurn? c rename p.constants m =
      (ClassFile.memberNames? p.constants m).map fun names => rename names.1 names.2 := by
  rw [ClassRenaming.newPairInTurn?, h.textInTurn?, h.textInTurn?, ClassFile.memberNames?]
  cases p.constants.utf8? m.name <;> cases p.constants.utf8? m.desc <;> rfl

/-! ### Conflicts -/

/-- A computation that finds no conflict. -/
def NoConflict {α : Type} (f : Renamer α) : Prop :=
  ∀ p p' {kind owner name desc : String}, f p ≠ (.error (.conflict kind owner name desc), p')

section NoConflict

variable {α β : Type}

theorem noConflict_withPool (f : WithPool α) : NoConflict (withPool f) := by
  intro p p' kind owner name desc hrun
  have hresult : (withPool f p).1 = (f p).1.mapError .classFile := rfl
  rw [hrun] at hresult
  cases hf : (f p).1 with
  | error e =>
    rw [hf] at hresult
    cases hresult
  | ok a =>
    rw [hf] at hresult
    cases hresult

theorem noConflict_pure (a : α) : NoConflict (pure a : Renamer α) := fun _ _ _ _ _ _ => nofun

theorem NoConflict.bind {f : Renamer α} {g : α → Renamer β} (hf : NoConflict f)
    (hg : ∀ a, NoConflict (g a)) : NoConflict (f >>= g) := by
  intro p p' kind owner name desc hrun
  rcases bind_eq_error hrun with hfirst | ⟨a, next, -, hrest⟩
  · exact hf p p' hfirst
  · exact hg a next p' hrest

end NoConflict

/-! ### Runs -/

section Run

variable {kind owner : String} {ignore : Bool} {seen : List NewPair} {m : Member}
  {members members' rest : List Member} {pairs : List (Option NewPair)} {r : NewPair}

theorem After.internText (h : After c p) {text : String} {index : UInt16}
    (hrun : Pool.internText text p = (.ok index, p')) :
    After c p' ∧ p.Extends p' ∧ p'.constants.utf8? index = some text := by
  obtain ⟨hsound, hextends, hat⟩ := Pool.interns_internText text p index p' h.sound hrun
  exact ⟨h.extends hsound hextends, hextends, by rw [Constants.utf8?, hat]⟩

theorem renameMembers_of_none (hafter : After c p)
    (hnone : newPairInTurn? c rename p.constants m = none) :
    renameMembers kind rename owner ignore seen (m :: rest) p =
      ((m :: ·) <$> renameMembers kind rename owner ignore seen rest) p := by
  rw [hafter.newPairInTurn?, Option.map_eq_none_iff] at hnone
  rw [renameMembers, bind_of_ok (show (get : Renamer Pool) p = (.ok p, p) from rfl), hnone]
  rfl

theorem renameMembers_of_some (hafter : After c p)
    (hpair : newPairInTurn? c rename p.constants m = some r) :
    renameMembers kind rename owner ignore seen (m :: rest) p =
      (if seen.contains r && !ignore then throw (.conflict kind owner r.name r.desc)
      else do
        let name ← withPool (Pool.internText r.name)
        let desc ← withPool (Pool.internText r.desc)
        ({ m with name, desc } :: ·) <$>
          renameMembers kind rename owner ignore (r :: seen) rest : Renamer (List Member)) p := by
  rw [hafter.newPairInTurn?] at hpair
  obtain ⟨names, hnames, rfl⟩ := Option.map_eq_some_iff.1 hpair
  rw [renameMembers, bind_of_ok (show (get : Renamer Pool) p = (.ok p, p) from rfl), hnames]
  rfl

/-- A member under its name and descriptor, if it got any. -/
def Called (cs : Constants) (m : Member) (r? : Option NewPair) : Prop :=
  ∀ r ∈ r?, ClassFile.memberNames? cs m = some (r.name, r.desc)

theorem Turns.after (h : Turns c rename p members pairs p') (hafter : After c p) :
    After c p' ∧ p.Extends p' := by
  induction h with
  | nil => exact ⟨hafter, .refl _⟩
  | passed _ _ ih => exact ih hafter
  | named _ hname hdesc _ ih =>
    obtain ⟨hafter₁, hextends₁, -⟩ := hafter.internText hname
    obtain ⟨hafter₂, hextends₂, -⟩ := hafter₁.internText hdesc
    obtain ⟨hafter', hextends'⟩ := ih hafter₂
    exact ⟨hafter', (hextends₁.trans hextends₂).trans hextends'⟩

/-- What is done with a result is done with an equal result. -/
theorem map_congr_run {α β : Type} (g : α → β) {x y : Renamer α} (h : x p = y p') :
    (g <$> x) p = (g <$> y) p' := by
  rw [map_eq_pure_bind, map_eq_pure_bind]
  rcases hy : y p' with ⟨a | a, next⟩
  · rw [bind_of_error hy, bind_of_error (h.trans hy)]
  · rw [bind_of_ok hy, bind_of_ok (h.trans hy)]

theorem not_seen {pairs : List NewPair}
    (hfresh : ignore = true ∨ (seen.reverse ++ r :: pairs).Nodup) :
    (seen.contains r && !ignore) = false := by
  rcases hfresh with rfl | hnodup
  · rw [Bool.not_true, Bool.and_false]
  · have hnot : r ∉ seen := fun hmem =>
      List.disjoint_of_nodup_append hnodup (List.mem_reverse.2 hmem) List.mem_cons_self
    rw [List.contains_eq_mem, decide_eq_false hnot, Bool.false_and]

/-- Members that come to their turns are renamed, if conflicts are ignored or none of them gets what
another one got, and renaming goes on behind them. -/
theorem Turns.run (h : Turns c rename p members pairs p') (hafter : After c p) :
    ∃ members', List.Forall₂ (Called p'.constants) members' pairs ∧
      ∀ kind owner ignore seen, (ignore = true ∨ (seen.reverse ++ pairs.reduceOption).Nodup) →
        ∀ rest, renameMembers kind rename owner ignore seen (members ++ rest) p =
          ((members' ++ ·) <$> renameMembers kind rename owner ignore
            (pairs.reduceOption.reverse ++ seen) rest) p' := by
  induction h with
  | nil => exact ⟨[], .nil, fun kind owner ignore seen _ rest => by simp⟩
  | @passed p p' m members pairs hnone _ ih =>
    obtain ⟨members', hcalled, hrun⟩ := ih hafter
    refine ⟨m :: members', .cons (fun _ => nofun) hcalled, ?_⟩
    intro kind owner ignore seen hfresh rest
    rw [List.cons_append, renameMembers_of_none hafter hnone,
      map_congr_run _ (hrun kind owner ignore seen hfresh rest), Functor.map_map]
    rfl
  | @named p p₁ p₂ p' m r name desc members pairs hpair hname hdesc hrest ih =>
    obtain ⟨hafter₁, hextends₁, hname'⟩ := hafter.internText hname
    obtain ⟨hafter₂, hextends₂, hdesc'⟩ := hafter₁.internText hdesc
    obtain ⟨hafter', hextends'⟩ := hrest.after hafter₂
    obtain ⟨members', hcalled, hrun⟩ := ih hafter₂
    refine ⟨{ m with name, desc } :: members', .cons ?_ hcalled, ?_⟩
    · rintro _ ⟨⟩
      refine memberNames?_eq_some.2 ⟨?_, ?_⟩
      · exact ((hextends₂.trans hextends').keeps _).utf8? hname'
      · exact (hextends'.keeps _).utf8? hdesc'
    · intro kind owner ignore seen hfresh rest
      rw [List.reduceOption_cons_of_some] at hfresh ⊢
      have hfresh' : ignore = true ∨ ((r :: seen).reverse ++ pairs.reduceOption).Nodup := by
        rwa [List.reverse_cons, List.append_assoc]
      rw [List.cons_append, renameMembers_of_some hafter hpair, not_seen hfresh,
        if_neg Bool.false_ne_true, bind_of_ok (withPool_of_ok hname),
        bind_of_ok (withPool_of_ok hdesc),
        map_congr_run _ (hrun kind owner ignore (r :: seen) hfresh' rest), Functor.map_map,
        List.reverse_cons, List.append_assoc]
      rfl

/-- All members that come to their turns are renamed, with one result whatever else they are renamed
under. -/
theorem Turns.run_all (h : Turns c rename p members pairs p') (hafter : After c p) :
    ∃ members', List.Forall₂ (Called p'.constants) members' pairs ∧
      ∀ kind owner ignore, (ignore = true ∨ pairs.reduceOption.Nodup) →
        renameMembers kind rename owner ignore [] members p = (.ok members', p') := by
  obtain ⟨members', hcalled, hrun⟩ := h.run hafter
  refine ⟨members', hcalled, fun kind owner ignore hfresh => ?_⟩
  have hall := hrun kind owner ignore [] (by simpa using hfresh) []
  rw [List.append_nil] at hall
  exact hall.trans (by simp [renameMembers]; rfl)

/-- A conflict is found at the first member that gets what a member before it got. -/
theorem FirstRepeated.run (h : FirstRepeated c rename p members r) (hafter : After c p)
    (kind owner : String) :
    ∃ p', renameMembers kind rename owner false [] members p =
      (.error (.conflict kind owner r.name r.desc), p') := by
  obtain ⟨before, m, after, pairs, p', rfl, hturns, hnodup, hpair, hmem⟩ := h
  obtain ⟨members', -, hrun⟩ := hturns.run hafter
  refine ⟨p', (hrun kind owner false [] (.inr hnodup) _).trans ?_⟩
  have hknown : ((pairs.reduceOption.reverse ++ []).contains r && !false) = true := by
    simpa [List.reduceOption_mem_iff] using hmem
  rw [map_eq_pure_bind]
  refine bind_of_error ?_
  rw [renameMembers_of_some (hturns.after hafter).1 hpair, hknown]
  rfl

/-- A new pair that was not seen, or whose being seen does not count. -/
theorem fresh_of_not_seen (hseen : ignore = true ∨ seen.Nodup)
    (h : ¬ (seen.contains r && !ignore) = true) : ignore = true ∨ (r :: seen).Nodup := by
  cases ignore with
  | true => exact .inl rfl
  | false =>
    rw [Bool.not_false, Bool.and_true, List.contains_eq_mem, decide_eq_true_iff] at h
    exact .inr (List.nodup_cons.2 ⟨h, hseen.resolve_left Bool.false_ne_true⟩)

/-- Members that are renamed have all come to their turns. -/
theorem turns_of_renameMembers (hafter : After c p) (hseen : ignore = true ∨ seen.Nodup)
    (hrun : renameMembers kind rename owner ignore seen members p = (.ok members', p')) :
    ∃ pairs, Turns c rename p members pairs p' ∧
      (ignore = true ∨ (seen.reverse ++ pairs.reduceOption).Nodup) := by
  induction members generalizing p seen members' with
  | nil =>
    cases hrun
    exact ⟨[], .nil, by simpa using hseen⟩
  | cons m members ih =>
    cases hpair : newPairInTurn? c rename p.constants m with
    | none =>
      rw [renameMembers_of_none hafter hpair, map_eq_pure_bind] at hrun
      obtain ⟨rest, _, hrest, hlast⟩ := bind_eq_ok hrun
      cases hlast
      obtain ⟨pairs, hturns, hfresh⟩ := ih hafter hseen hrest
      exact ⟨none :: pairs, .passed hpair hturns, hfresh⟩
    | some r =>
      rw [renameMembers_of_some hafter hpair] at hrun
      split at hrun
      · cases hrun
      · next hnot =>
        obtain ⟨name, p₁, hname, hrun⟩ := bind_eq_ok hrun
        replace hname := withPool_eq_ok hname
        obtain ⟨desc, p₂, hdesc, hrun⟩ := bind_eq_ok hrun
        replace hdesc := withPool_eq_ok hdesc
        rw [map_eq_pure_bind] at hrun
        obtain ⟨rest, _, hrest, hlast⟩ := bind_eq_ok hrun
        cases hlast
        have hafter₂ := (hafter.internText hname).1.internText hdesc
        obtain ⟨pairs, hturns, hfresh⟩ := ih hafter₂.1 (fresh_of_not_seen hseen hnot) hrest
        refine ⟨some r :: pairs, .named hpair hname hdesc hturns, ?_⟩
        rwa [List.reverse_cons, List.append_assoc, List.singleton_append,
          ← List.reduceOption_cons_of_some] at hfresh

/-- A conflict is found at the first member that gets what was seen, or what a member before it
got. -/
theorem repeated_behind_seen {k o n d : String} (hafter : After c p)
    (hseen : ignore = true ∨ seen.Nodup)
    (hrun : renameMembers kind rename owner ignore seen members p =
      (.error (.conflict k o n d), p')) :
    k = kind ∧ o = owner ∧ ignore = false ∧
      ∃ before m after pairs, members = before ++ m :: after ∧ Turns c rename p before pairs p' ∧
        (seen.reverse ++ pairs.reduceOption).Nodup ∧
        newPairInTurn? c rename p'.constants m = some ⟨n, d⟩ ∧
        ⟨n, d⟩ ∈ seen.reverse ++ pairs.reduceOption := by
  induction members generalizing p seen with
  | nil => cases hrun
  | cons m members ih =>
    cases hpair : newPairInTurn? c rename p.constants m with
    | none =>
      rw [renameMembers_of_none hafter hpair, map_eq_pure_bind] at hrun
      rcases bind_eq_error hrun with hrest | ⟨_, _, -, hlast⟩
      · obtain ⟨hk, ho, hignore, before, m', after, pairs, rfl, hturns, hmore⟩ :=
          ih hafter hseen hrest
        exact ⟨hk, ho, hignore, m :: before, m', after, none :: pairs, rfl, .passed hpair hturns,
          hmore⟩
      · cases hlast
    | some r =>
      rw [renameMembers_of_some hafter hpair] at hrun
      split at hrun
      · next hknown =>
        cases hrun
        obtain ⟨hmem, hignore⟩ := Bool.and_eq_true_iff.1 hknown
        rw [Bool.not_eq_true'] at hignore
        refine ⟨rfl, rfl, hignore, [], m, members, [], rfl, .nil, ?_, hpair, ?_⟩
        · simpa [hignore] using hseen
        · simpa using hmem
      · next hnot =>
        rcases bind_eq_error hrun with hname | ⟨name, p₁, hname, hrun⟩
        · exact absurd hname (noConflict_withPool _ _ _)
        replace hname := withPool_eq_ok hname
        rcases bind_eq_error hrun with hdesc | ⟨desc, p₂, hdesc, hrun⟩
        · exact absurd hdesc (noConflict_withPool _ _ _)
        replace hdesc := withPool_eq_ok hdesc
        rw [map_eq_pure_bind] at hrun
        rcases bind_eq_error hrun with hrest | ⟨_, _, -, hlast⟩
        · have hafter₂ := (hafter.internText hname).1.internText hdesc
          obtain ⟨hk, ho, hignore, before, m', after, pairs, rfl, hturns, hmore⟩ :=
            ih hafter₂.1 (fresh_of_not_seen hseen hnot) hrest
          refine ⟨hk, ho, hignore, m :: before, m', after, some r :: pairs, rfl,
            .named hpair hname hdesc hturns, ?_⟩
          rwa [List.reverse_cons, List.append_assoc, List.singleton_append,
            ← List.reduceOption_cons_of_some] at hmore
        · cases hlast

theorem firstRepeated_of_renameMembers {k o n d : String} (hafter : After c p)
    (hrun : renameMembers kind rename owner ignore [] members p =
      (.error (.conflict k o n d), p')) :
    k = kind ∧ o = owner ∧ ignore = false ∧ FirstRepeated c rename p members ⟨n, d⟩ := by
  obtain ⟨hk, ho, hignore, before, m, after, pairs, hsplit, hturns, hnodup, hpair, hmem⟩ :=
    repeated_behind_seen hafter (.inr List.nodup_nil) hrun
  exact ⟨hk, ho, hignore, before, m, after, pairs, p', hsplit, hturns, hnodup, hpair,
    List.reduceOption_mem_iff.1 hmem⟩

/-- Members that are renamed without a conflict are renamed in the same way if conflicts are
ignored. -/
theorem turns_of_no_conflict (hafter : After c p)
    (hrun : renameMembers kind rename owner false [] members p = (.ok members', p')) :
    renameMembers kind rename owner true [] members p = (.ok members', p') ∧
      ∃ pairs, Turns c rename p members pairs p' ∧
        List.Forall₂ (Called p'.constants) members' pairs ∧ pairs.reduceOption.Nodup := by
  obtain ⟨pairs, hturns, hfresh⟩ := turns_of_renameMembers hafter (.inr List.nodup_nil) hrun
  have hnodup : pairs.reduceOption.Nodup := hfresh.resolve_left Bool.false_ne_true
  obtain ⟨all, hcalled, hall⟩ := hturns.run_all hafter
  cases (hall kind owner false (.inr hnodup)).symm.trans hrun
  exact ⟨hall kind owner true (.inl rfl), pairs, hturns, hcalled, hnodup⟩

end Run

/-! ### Members under new tables -/

section Tables

variable {members members' : List Member} {pairs : List (Option NewPair)} {r : NewPair}

/-- Members of the same name and descriptor, by their indexes. -/
def SameNames (m m' : Member) : Prop := m'.name = m.name ∧ m'.desc = m.desc

theorem sameNames_of_attributesRenamed (h : List.Forall₂ AttributesRenamed members members') :
    List.Forall₂ SameNames members members' := by
  refine h.imp fun m m' hm => ?_
  rw [hm.1]
  exact ⟨rfl, rfl⟩

theorem forall₂_sameNames_symm (h : List.Forall₂ SameNames members members') :
    List.Forall₂ SameNames members' members :=
  h.flip.imp fun _ _ hm => ⟨hm.1.symm, hm.2.symm⟩

theorem SameNames.newPairInTurn? {m m' : Member} (h : SameNames m m') (now : Constants) :
    newPairInTurn? c rename now m' = newPairInTurn? c rename now m := by
  rw [ClassRenaming.newPairInTurn?, ClassRenaming.newPairInTurn?, h.1, h.2]

/-- Members come to the same turns whatever their tables are. -/
theorem Turns.of_sameNames (h : Turns c rename p members pairs p')
    (hsame : List.Forall₂ SameNames members members') : Turns c rename p members' pairs p' := by
  induction h generalizing members' with
  | nil =>
    cases hsame
    exact .nil
  | passed hnone _ ih =>
    obtain _ | ⟨hm, hrest⟩ := hsame
    exact .passed ((hm.newPairInTurn? _).trans hnone) (ih hrest)
  | named hpair hname hdesc _ ih =>
    obtain _ | ⟨hm, hrest⟩ := hsame
    exact .named ((hm.newPairInTurn? _).trans hpair) hname hdesc (ih hrest)

theorem FirstRepeated.of_sameNames (h : FirstRepeated c rename p members r)
    (hsame : List.Forall₂ SameNames members members') : FirstRepeated c rename p members' r := by
  obtain ⟨before, m, after, pairs, p', rfl, hturns, hnodup, hpair, hmem⟩ := h
  have hbefore := List.forall₂_take_append members' before (m :: after) hsame.flip
  have hbehind := List.forall₂_drop_append members' before (m :: after) hsame.flip
  generalize hsplit : members'.drop before.length = behind at hbehind
  obtain _ | @⟨m', _, after', _, hm, -⟩ := hbehind
  refine ⟨members'.take before.length, m', after', pairs, p', ?_, ?_, hnodup, ?_, hmem⟩
  · rw [← hsplit, List.take_append_drop]
  · exact hturns.of_sameNames hbefore.flip
  · exact (SameNames.newPairInTurn? hm _).trans hpair

end Tables

end ClassRenaming

end JarRemap
