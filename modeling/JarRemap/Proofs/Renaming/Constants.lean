import JarRemap.Proofs.ClassFile.RoundTrip
import JarRemap.Proofs.Renaming.Symbol

/-!
# Passes over the constants

What any pass keeps, and what the two passes over symbols do.
-/

/-!
## Passes over a growing pool

A pass changes the constants of a range one after the other while the pool grows behind them. What
one change guarantees of its constant has to last while later changes are made; it does if it
depends on constants alone that no change touches.
-/

namespace JarRemap

theorem Constant.slot_of_isShared {c : Constant} (h : c.isShared = true) : c.slot = .plain := by
  cases c <;> first | rfl | cases h

namespace ClassRenaming

/-- What a pass over a range of indexes makes of a pool: it keeps the constants of a kind, changes
others of the range as it should, and appends texts and pairs. -/
structure Pass (kind : Constant → Bool) (R : Constants → Constant → Constant → Prop)
    (low high : Nat) (p p' : Pool) : Prop where
  sound : p'.Sound
  keeps : p.constants.Keeps kind p'.constants
  old : ∀ (i : Nat) (c : Constant), p.constants[i]? = some c →
    ∃ c', p'.constants[i]? = some c' ∧ c'.slot = c.slot ∧
      (low ≤ i → i < high → R p'.constants c c') ∧ (i < low ∨ high ≤ i → c' = c)
  new : ∀ (i : Nat) (c' : Constant), p.size ≤ i → p'.constants[i]? = some c' → c'.isShared = true

/-- A change of one constant that a pass is made of. It may rely on the constants of a kind being
where they were at first, and guarantees what lasts as long as they stay. -/
structure Changes (kind : Constant → Bool) (R : Constants → Constant → Constant → Prop)
    (start : Constants) (f : Constant → WithPool Constant) : Prop where
  shared : ∀ c, c.isShared = true → kind c = true
  lasts : ∀ {a b c c'}, R a c c' → a.Keeps kind b → R b c c'
  run : ∀ {c p c' p'}, p.Sound → start.Keeps kind p.constants → f c p = (.ok c', p') →
    p'.Sound ∧ p.Extends p' ∧ R p'.constants c c' ∧ (kind c = true → c' = c) ∧ c'.slot = c.slot

variable {kind : Constant → Bool} {R : Constants → Constant → Constant → Prop} {p p' : Pool}

/-- Appending is a pass over a range without constants. -/
theorem Pass.of_extends (hsound : p'.Sound) (h : p.Extends p') {low high : Nat}
    (hempty : ∀ i, low ≤ i → i < high → p.constants[i]? = none) : Pass kind R low high p p' := by
  refine ⟨hsound, h.keeps kind, ?_, ?_⟩
  · intro i c hc
    refine ⟨c, h.keeps (fun _ => true) i c hc rfl, rfl, fun hlow hhigh => ?_, fun _ => rfl⟩
    exact absurd (hc.symm.trans (hempty i hlow hhigh)) (by simp)
  · exact fun i c' hi hc' => h.isShared hi hc'

/-- A pass leaves the slots as they were, and appends plain ones. -/
theorem Pass.slots {low high : Nat} (h : Pass kind R low high p p') :
    ∃ count, p'.constants.toList.map Constant.slot =
      p.constants.toList.map Constant.slot ++ List.replicate count .plain := by
  have hsize : p.size ≤ p'.size := by
    by_contra hlt
    obtain ⟨c', hc', -⟩ := h.old p'.size _ (Array.getElem?_eq_getElem (Nat.lt_of_not_le hlt))
    exact Nat.lt_irrefl _ (Array.getElem?_eq_some_iff.1 hc').1
  refine ⟨p'.size - p.size, List.ext_getElem? fun i => ?_⟩
  rw [List.getElem?_map, Array.getElem?_toList]
  by_cases hi : i < p.size
  · obtain ⟨c', hc', hslot, -⟩ := h.old i _ (Array.getElem?_eq_getElem hi)
    rw [List.getElem?_append_left (by simpa [Pool.size] using hi),
      List.getElem?_map, Array.getElem?_toList, hc',
      Array.getElem?_eq_getElem hi, Option.map_some, Option.map_some, hslot]
  · rw [List.getElem?_append_right (by simpa [Pool.size] using hi),
      List.getElem?_replicate,
      List.length_map, Array.length_toList]
    change _ = if i - p.size < p'.size - p.size then _ else _
    by_cases hi' : i < p'.size
    · have hc' : p'.constants[i]? = some _ := Array.getElem?_eq_getElem hi'
      rw [hc', Option.map_some, Constant.slot_of_isShared (h.new i _ (Nat.le_of_not_lt hi) hc'),
        if_pos (by omega)]
    · rw [Array.getElem?_eq_none (Nat.le_of_not_lt hi'), Option.map_none, if_neg (by omega)]

/-- Two passes over neighbouring ranges are one pass. -/
theorem Pass.append {low mid high : Nat} {next : Pool} (hlow : low ≤ mid) (hhigh : mid ≤ high)
    (hshared : ∀ c, c.isShared = true → kind c = true)
    (hlasts : ∀ {a b c c'}, R a c c' → a.Keeps kind b → R b c c')
    (hfirst : Pass kind R low mid p next) (hsecond : Pass kind R mid high next p') :
    Pass kind R low high p p' := by
  refine ⟨hsecond.sound, hfirst.keeps.trans hsecond.keeps, ?_, ?_⟩
  · intro i c hc
    obtain ⟨c₁, hc₁, hslot₁, hin₁, hout₁⟩ := hfirst.old i c hc
    obtain ⟨c₂, hc₂, hslot₂, hin₂, hout₂⟩ := hsecond.old i c₁ hc₁
    refine ⟨c₂, hc₂, hslot₂.trans hslot₁, ?_, ?_⟩
    · intro hi hi'
      by_cases hmid : i < mid
      · rw [hout₂ (.inl hmid)]
        exact hlasts (hin₁ hi hmid) hsecond.keeps
      · rw [← hout₁ (.inr (by omega))]
        exact hin₂ (by omega) hi'
    · intro hi
      rw [hout₂ (by omega), hout₁ (by omega)]
  · intro i c' hi hc'
    by_cases hsize : next.size ≤ i
    · exact hsecond.new i c' hsize hc'
    · obtain ⟨c₁, hc₁⟩ : ∃ c₁, next.constants[i]? = some c₁ :=
        ⟨_, Array.getElem?_eq_getElem (Nat.lt_of_not_le hsize)⟩
      have hc₁' := hfirst.new i c₁ hi hc₁
      have hkept := hsecond.keeps i c₁ hc₁ (hshared c₁ hc₁')
      rw [hc'] at hkept
      cases hkept
      exact hc₁'

/-- Changing the constant at an index is a pass over the index. -/
theorem Changes.pass_replace {start : Constants} {f : Constant → WithPool Constant}
    (h : Changes kind R start f) {index : Nat} {c c' : Constant} {next : Pool} (hsound : p.Sound)
    (hstart : start.Keeps kind p.constants) (hc : p.constants[index]? = some c)
    (hrun : f c p = (.ok c', next)) :
    Pass kind R index (index + 1) p
      { next with constants := next.constants.set! index c' } := by
  obtain ⟨hnext, hextends, hR, hkind, hslot⟩ := h.run hsound hstart hrun
  have hat := hextends.keeps (fun _ => true) index c hc rfl
  have hget : ∀ i : Nat, (next.constants.set! index c')[i]? =
      if i = index then some c' else next.constants[i]? := by
    intro i
    rw [Array.set!_eq_setIfInBounds, Array.getElem?_setIfInBounds]
    obtain ⟨hlt, -⟩ := Array.getElem?_eq_some_iff.1 hat
    by_cases hi : index = i
    · subst hi
      rw [if_pos rfl, if_pos hlt, if_pos rfl]
    · rw [if_neg hi, if_neg fun e => hi e.symm]
  have hkeeps : next.constants.Keeps kind (next.constants.set! index c') := by
    intro i constant hconstant hk
    rw [hget]
    split
    · next hi =>
      subst hi
      rw [hat] at hconstant
      cases hconstant
      rw [hkind hk]
    · exact hconstant
  have hkeeps' := hkeeps.mono h.shared
  refine ⟨⟨?_, ?_, ?_⟩, (hextends.keeps kind).trans hkeeps, ?_, ?_⟩
  · simpa [Pool.size] using hnext.size
  · intro text i hi
    exact hkeeps' i.toNat _ (hnext.texts text i hi) rfl
  · intro name desc i hi
    exact hkeeps' i.toNat _ (hnext.pairs name desc i hi) rfl
  · intro i constant hconstant
    have hconstant' := hextends.keeps (fun _ => true) i constant hconstant rfl
    simp only [hget]
    split
    · next hi =>
      subst hi
      rw [hc] at hconstant
      cases hconstant
      exact ⟨c', rfl, hslot, fun _ _ => h.lasts hR hkeeps, fun hout => by omega⟩
    · exact ⟨constant, hconstant', rfl, fun hlow hhigh => by omega, fun _ => rfl⟩
  · intro i constant hi hconstant
    rw [hget, if_neg] at hconstant
    · exact hextends.isShared hi hconstant
    · rintro rfl
      obtain ⟨hlt, -⟩ := Array.getElem?_eq_some_iff.1 hc
      exact absurd hlt (Nat.not_lt_of_le hi)

theorem mapConstants_succ {f : Constant → WithPool Constant} {count index : Nat} {c c' : Constant}
    {next : Pool} (hc : p.constants[index]? = some c) (hf : f c p = (.ok c', next)) :
    mapConstants f (count + 1) index p =
      mapConstants f count (index + 1) { next with constants := next.constants.set! index c' } := by
  rw [mapConstants, bind_of_ok (show (get : WithPool Pool) p = (.ok p, p) from rfl)]
  dsimp only
  rw [hc]
  dsimp only
  rw [bind_of_ok hf]
  rfl

/-- A pass that changes none of the constants it comes to leaves the pool alone. -/
theorem mapConstants_of_fixed {f : Constant → WithPool Constant} {count index : Nat}
    (h : ∀ c ∈ p.constants.toList.drop index, f c p = (.ok c, p)) :
    mapConstants f count index p = (.ok (), p) := by
  induction count generalizing index with
  | zero => rfl
  | succ count ih =>
    have hrest : mapConstants f count (index + 1) p = (.ok (), p) := by
      refine ih fun c hc => h c ?_
      rw [← List.drop_drop] at hc
      exact List.mem_of_mem_drop hc
    cases hc : p.constants[index]? with
    | none =>
      rw [mapConstants, bind_of_ok (show (get : WithPool Pool) p = (.ok p, p) from rfl)]
      dsimp only
      rw [hc]
      exact hrest
    | some c =>
      obtain ⟨hlt, rfl⟩ := Array.getElem?_eq_some_iff.1 hc
      have hmem : p.constants[index] ∈ p.constants.toList.drop index := by
        rw [← Array.getElem_toList, List.drop_eq_getElem_cons (by simpa using hlt)]
        exact List.mem_cons_self
      rw [mapConstants_succ hc (h _ hmem), Array.set!_eq_setIfInBounds, Array.setIfInBounds_def,
        dif_pos hlt, Array.set_getElem_self]
      exact hrest

/-- A pass is one change after the other. -/
theorem Changes.pass_mapConstants {start : Constants} {f : Constant → WithPool Constant}
    (h : Changes kind R start f) (count index : Nat) (hsound : p.Sound)
    (hstart : start.Keeps kind p.constants) (hrun : mapConstants f count index p = (.ok (), p')) :
    Pass kind R index (index + count) p p' := by
  induction count generalizing index p with
  | zero =>
    cases hrun
    exact .of_extends hsound (.refl _) fun _ _ hlt => by omega
  | succ count ih =>
    rw [mapConstants] at hrun
    obtain ⟨_, _, hget, hrun⟩ := bind_eq_ok hrun
    cases hget
    dsimp only at hrun
    have hstep : ∃ next, Pass kind R index (index + 1) p next ∧
        mapConstants f count (index + 1) next = (.ok (), p') := by
      cases hc : p.constants[index]? with
      | none =>
        rw [hc] at hrun
        refine ⟨p, .of_extends hsound (.refl p) fun i hlow hhigh => ?_, hrun⟩
        rw [show i = index by omega]
        exact hc
      | some c =>
        rw [hc] at hrun
        obtain ⟨c', next, hfirst, hrun⟩ := bind_eq_ok hrun
        obtain ⟨_, _, hreplace, hrun⟩ := bind_eq_ok hrun
        cases hreplace
        exact ⟨_, h.pass_replace hsound hstart hc hfirst, hrun⟩
    obtain ⟨next, hpass, hrest⟩ := hstep
    have hpass' := ih (index + 1) hpass.sound (hstart.trans hpass.keeps) hrest
    rw [Nat.add_right_comm] at hpass'
    exact hpass.append (Nat.le_succ index) (by omega) h.shared h.lasts hpass'

end ClassRenaming

end JarRemap

/-!
## Renaming constants

What the two passes over the constants do to symbols: the first renames members under the old names
of their owners, the second renames the classes, and with them the owners of all members.
-/

namespace JarRemap

namespace ClassRenaming

open Pool

variable {resolver : Resolver} {start : Constants} {p p' : Pool}

/-- The pair at the given index is the renamed one, if the old index has the old pair. -/
theorem interns_internRenamed {index : UInt16} {name desc : String} {r : NewPair} {index' : UInt16}
    (hsound : p.Sound) (hrun : internRenamed index name desc r p = (.ok index', p')) :
    p'.Sound ∧ p.Extends p' ∧ (p.constants.nameAndType? index = some (name, desc) →
      p'.constants.nameAndType? index' = some (r.name, r.desc)) := by
  unfold internRenamed at hrun
  split at hrun
  · next hsame =>
    cases hrun
    refine ⟨hsound, .refl _, fun hpair => ?_⟩
    rw [hsame]
    exact hpair
  · obtain ⟨hsound', hextends, hpair⟩ := interns_internPair r.name r.desc p index' p' hsound hrun
    exact ⟨hsound', hextends, fun _ => hpair⟩

theorem interns_renameReference {rename : String → String → String → NewPair}
    {owner pair pair' : UInt16} (hsound : p.Sound) (hstart : start.Keeps Constant.isPart p.constants)
    (hrun : renameReference rename owner pair p = (.ok pair', p')) :
    p'.Sound ∧ p.Extends p' ∧ ∀ o n d, start.className? owner = some o →
      start.nameAndType? pair = some (n, d) →
        p'.constants.nameAndType? pair' = some ((rename o n d).name, (rename o n d).desc) := by
  obtain ⟨_, _, hget, hrun⟩ := bind_eq_ok hrun
  cases hget
  have hshared := hstart.mono fun _ => Constant.isPart_of_isShared
  cases howner : p.constants.className? owner with
  | none =>
    simp only [howner] at hrun
    cases hrun
    refine ⟨hsound, .refl _, fun o n d ho hp => ?_⟩
    exact absurd ((hstart.className? ho).symm.trans howner) (by simp)
  | some o =>
    cases hpair : p.constants.nameAndType? pair with
    | none =>
      simp only [howner, hpair] at hrun
      cases hrun
      refine ⟨hsound, .refl _, fun o n d ho hp => ?_⟩
      exact absurd ((hshared.nameAndType? hp).symm.trans hpair) (by simp)
    | some found =>
      simp only [howner, hpair] at hrun
      obtain ⟨hsound', hextends, hnew⟩ := interns_internRenamed hsound hrun
      refine ⟨hsound', hextends, fun o' n' d' ho hp => ?_⟩
      cases (hstart.className? ho).symm.trans howner
      cases (hshared.nameAndType? hp).symm.trans hpair
      exact hnew hpair

theorem interns_renameDynamic {implemented : Option String} {pair pair' : UInt16}
    (hsound : p.Sound) (hstart : start.Keeps Constant.isShared p.constants)
    (hrun : renameDynamic resolver implemented pair p = (.ok pair', p')) :
    p'.Sound ∧ p.Extends p' ∧ ∀ n d, start.nameAndType? pair = some (n, d) →
      p'.constants.nameAndType? pair' = some ((renameCallSite resolver implemented n d).name,
        (renameCallSite resolver implemented n d).desc) := by
  obtain ⟨_, _, hget, hrun⟩ := bind_eq_ok hrun
  cases hget
  cases hpair : p.constants.nameAndType? pair with
  | none =>
    simp only [hpair] at hrun
    cases hrun
    refine ⟨hsound, .refl _, fun n d hp => ?_⟩
    exact absurd ((hstart.nameAndType? hp).symm.trans hpair) (by simp)
  | some found =>
    simp only [hpair] at hrun
    obtain ⟨hsound', hextends, hnew⟩ := interns_internRenamed hsound hrun
    refine ⟨hsound', hextends, fun n d hp => ?_⟩
    cases (hstart.nameAndType? hp).symm.trans hpair
    exact hnew hpair

theorem interns_renameText {index index' : UInt16} {rename : String → Option String}
    (hsound : p.Sound) (hstart : start.Keeps Constant.isShared p.constants)
    (hrun : renameText index rename p = (.ok index', p')) :
    p'.Sound ∧ p.Extends p' ∧ ∀ text, start.utf8? index = some text →
      p'.constants.utf8? index' = some ((rename text).getD text) := by
  obtain ⟨_, _, hget, hrun⟩ := bind_eq_ok hrun
  cases hget
  cases htext : p.constants.utf8? index with
  | none =>
    simp only [htext] at hrun
    cases hrun
    refine ⟨hsound, .refl _, fun text htext' => ?_⟩
    exact absurd ((hstart.utf8? htext').symm.trans htext) (by simp)
  | some text =>
    have hsame : ∀ text', start.utf8? index = some text' → text' = text :=
      fun text' htext' => Option.some.inj ((hstart.utf8? htext').symm.trans htext)
    cases hrenamed : rename text with
    | none =>
      simp only [htext, hrenamed] at hrun
      cases hrun
      refine ⟨hsound, .refl _, fun text' htext' => ?_⟩
      rw [hsame text' htext', hrenamed, Option.getD_none, htext]
    | some renamed =>
      simp only [htext, hrenamed] at hrun
      split at hrun
      · next heq =>
        cases hrun
        refine ⟨hsound, .refl _, fun text' htext' => ?_⟩
        rw [hsame text' htext', hrenamed, Option.getD_some, heq, htext]
      · obtain ⟨hsound', hextends, hnew⟩ := interns_internText renamed p index' p' hsound hrun
        refine ⟨hsound', hextends, fun text' htext' => ?_⟩
        rw [hsame text' htext', hrenamed, Option.getD_some, Constants.utf8?, hnew]

/-- A constant whose member is renamed; a constant without a symbol stays. -/
def MemberRenamed (resolver : Resolver) (lambdas : List (Option String)) (start : Constants)
    (cs : Constants) (c c' : Constant) : Prop :=
  (∀ s, start.symbol? c = some s → cs.symbol? c' = some (s.renameMember resolver lambdas)) ∧
    (c.isSymbol = false → c' = c)

/-- A constant whose class is renamed; a constant that is no class stays. -/
def OwnerRenamed (resolver : Resolver) (start : Constants) (cs : Constants) (c c' : Constant) :
    Prop :=
  (∀ name text, c = .classRef name → start.utf8? name = some text →
    ∃ name', c' = .classRef name' ∧ cs.utf8? name' = some (Symbol.newOwner resolver text)) ∧
    ((∀ name, c ≠ .classRef name) → c' = c)

theorem member?_eq_some {cs : Constants} {make : String → String → String → Symbol}
    {owner pair : UInt16} {s : Symbol} (h : cs.member? make owner pair = some s) :
    ∃ o n d, cs.className? owner = some o ∧ cs.nameAndType? pair = some (n, d) ∧ s = make o n d := by
  obtain ⟨o, ho, h⟩ := Option.bind_eq_some_iff.1 h
  obtain ⟨⟨n, d⟩, hp, h⟩ := Option.bind_eq_some_iff.1 h
  exact ⟨o, n, d, ho, hp, (Option.some.inj h).symm⟩

theorem member?_of_eq {cs : Constants} (make : String → String → String → Symbol)
    {owner pair : UInt16} {o n d : String} (ho : cs.className? owner = some o)
    (hp : cs.nameAndType? pair = some (n, d)) : cs.member? make owner pair = some (make o n d) := by
  simp [Constants.member?, ho, hp]

/-- A reference to a member, whichever of the three kinds `build` makes it. -/
theorem memberRenamed_reference (build : UInt16 → Constant)
    (make : String → String → String → Symbol) {lambdas : List (Option String)}
    {rename : String → String → String → NewPair} {owner pair : UInt16} {c' : Constant}
    (hbuild : ∀ cs pair, Constants.symbol? cs (build pair) = cs.member? make owner pair)
    (hmake : ∀ o n d, (make o n d).renameMember resolver lambdas =
      make o (rename o n d).name (rename o n d).desc)
    (hkind : (build pair).isSymbol = true) (hsound : p.Sound)
    (hstart : start.Keeps Constant.isPart p.constants)
    (hrun : (build <$> renameReference rename owner pair : WithPool Constant) p = (.ok c', p')) :
    p'.Sound ∧ p.Extends p' ∧ MemberRenamed resolver lambdas start p'.constants (build pair) c' ∧
      ∃ pair', c' = build pair' := by
  obtain ⟨pair', _, hfirst, hrun⟩ := bind_eq_ok hrun
  cases hrun
  obtain ⟨hsound', hextends, hnew⟩ := interns_renameReference hsound hstart hfirst
  refine ⟨hsound', hextends, ⟨fun s hs => ?_, fun h => ?_⟩, pair', rfl⟩
  · rw [hbuild] at hs
    obtain ⟨o, n, d, ho, hp, rfl⟩ := member?_eq_some hs
    have ho' := (hstart.trans (hextends.keeps _)).className? ho
    rw [hbuild, hmake, member?_of_eq make ho' (hnew o n d ho hp)]
  · rw [hkind] at h
    cases h

theorem renameCallSite_eq (lambdas : List (Option String)) (bootstrap : UInt16) (n d : String) :
    renameCallSite resolver (lambdas[bootstrap.toNat]?).join n d =
      ⟨Symbol.newCallSite resolver lambdas bootstrap n d, resolver.newDescriptor d⟩ := by
  unfold renameCallSite Symbol.newCallSite
  cases (lambdas[bootstrap.toNat]?).join with
  | none => rfl
  | some implemented => cases interface? d <;> rfl

/-- The first pass renames members. -/
theorem changes_renameMemberIn (resolver : Resolver) (lambdas : List (Option String))
    (start : Constants) :
    Changes Constant.isPart (MemberRenamed resolver lambdas start) start
      (renameMemberIn resolver lambdas) := by
  refine ⟨fun _ => Constant.isPart_of_isShared, ?_, ?_⟩
  · rintro a b c c' ⟨hsymbol, hother⟩ hkeeps
    exact ⟨fun s hs => hkeeps.symbol? (hsymbol s hs), hother⟩
  · intro c p c' p' hsound hstart hrun
    have hshared := hstart.mono fun _ => Constant.isPart_of_isShared
    cases c
    case fieldRef owner pair =>
      obtain ⟨hsound', hextends, hrenamed, pair', rfl⟩ := memberRenamed_reference
        (.fieldRef owner) .field (fun _ _ => rfl) (fun _ _ _ => rfl) rfl hsound hstart hrun
      exact ⟨hsound', hextends, hrenamed, fun h => (by cases h), rfl⟩
    case methodRef owner pair =>
      obtain ⟨hsound', hextends, hrenamed, pair', rfl⟩ := memberRenamed_reference
        (.methodRef owner) .method (fun _ _ => rfl) (fun _ _ _ => rfl) rfl hsound hstart hrun
      exact ⟨hsound', hextends, hrenamed, fun h => (by cases h), rfl⟩
    case interfaceMethodRef owner pair =>
      obtain ⟨hsound', hextends, hrenamed, pair', rfl⟩ := memberRenamed_reference
        (.interfaceMethodRef owner) .interfaceMethod (fun _ _ => rfl) (fun _ _ _ => rfl) rfl hsound
        hstart hrun
      exact ⟨hsound', hextends, hrenamed, fun h => (by cases h), rfl⟩
    case invokeDynamic bootstrap pair =>
      obtain ⟨pair', next, hfirst, hrun⟩ := bind_eq_ok hrun
      cases hrun
      obtain ⟨hsound', hextends, hnew⟩ := interns_renameDynamic hsound hshared hfirst
      refine ⟨hsound', hextends, ⟨fun s hs => ?_, fun h => by cases h⟩, fun h => (by cases h), rfl⟩
      obtain ⟨⟨n, d⟩, hpair, rfl⟩ := Option.map_eq_some_iff.1 hs
      have hpair' := hnew n d hpair
      rw [renameCallSite_eq] at hpair'
      simp [Constants.symbol?, hpair', Symbol.renameMember]
    case dynamic bootstrap pair =>
      obtain ⟨pair', next, hfirst, hrun⟩ := bind_eq_ok hrun
      cases hrun
      obtain ⟨hsound', hextends, hnew⟩ := interns_renameDynamic hsound hshared hfirst
      refine ⟨hsound', hextends, ⟨fun s hs => ?_, fun h => by cases h⟩, fun h => (by cases h), rfl⟩
      obtain ⟨⟨n, d⟩, hpair, rfl⟩ := Option.map_eq_some_iff.1 hs
      have hpair' := hnew n d hpair
      simp [Constants.symbol?, hpair', Symbol.renameMember, renameCallSite]
    case methodType desc =>
      obtain ⟨desc', next, hfirst, hrun⟩ := bind_eq_ok hrun
      cases hrun
      obtain ⟨hsound', hextends, hnew⟩ := interns_renameText hsound hshared hfirst
      refine ⟨hsound', hextends, ⟨fun s hs => ?_, fun h => by cases h⟩, fun h => (by cases h), rfl⟩
      obtain ⟨text, htext, rfl⟩ := Option.map_eq_some_iff.1 hs
      simp [Constants.symbol?, hnew text htext, Symbol.renameMember]
    case classRef name =>
      cases hrun
      refine ⟨hsound, .refl _, ⟨fun s hs => ?_, fun h => by cases h⟩, fun _ => rfl, rfl⟩
      have hs' := hstart.symbol? hs
      obtain ⟨text, -, rfl⟩ := Option.map_eq_some_iff.1 hs
      exact hs'
    all_goals
      cases hrun
      exact ⟨hsound, .refl _, ⟨fun s hs => (by cases hs), fun _ => rfl⟩, fun _ => rfl, rfl⟩

/-- The second pass renames classes. -/
theorem changes_renameClassIn (resolver : Resolver) (start : Constants) :
    Changes Constant.isShared (OwnerRenamed resolver start) start (renameClassIn resolver) := by
  refine ⟨fun _ h => h, ?_, ?_⟩
  · rintro a b c c' ⟨hclass, hother⟩ hkeeps
    refine ⟨fun name text hname htext => ?_, hother⟩
    obtain ⟨name', hc', hname'⟩ := hclass name text hname htext
    exact ⟨name', hc', hkeeps.utf8? hname'⟩
  · intro c p c' p' hsound hstart hrun
    cases c
    case classRef name =>
      obtain ⟨name', next, hfirst, hrun⟩ := bind_eq_ok hrun
      cases hrun
      obtain ⟨hsound', hextends, hnew⟩ := interns_renameText hsound hstart hfirst
      refine ⟨hsound', hextends, ⟨?_, fun h => absurd rfl (h name)⟩, fun h => (by cases h), rfl⟩
      intro name₀ text hname htext
      cases hname
      exact ⟨name', rfl, hnew text htext⟩
    all_goals
      cases hrun
      exact ⟨hsound, .refl _, ⟨fun _ _ h => (by cases h), fun _ => rfl⟩, fun _ => rfl, rfl⟩

end ClassRenaming

end JarRemap
