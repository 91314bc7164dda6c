import JarRemap.Proofs.ClassFile.Interning
import JarRemap.Renaming.Classes

/-!
# Symbols

What a constant stands for: a class, a member of a class, a method type, or a call site. Symbols are
made of the texts that a constant leads to, so two pools can be compared by the symbols at their
indexes, wherever the texts stand.
-/

namespace JarRemap

/-- What a constant that is renamed stands for. -/
inductive Symbol where
  | type (name : String)
  | field (owner name desc : String)
  | method (owner name desc : String)
  | interfaceMethod (owner name desc : String)
  | methodType (desc : String)
  | dynamic (bootstrap : UInt16) (name desc : String)
  | callSite (bootstrap : UInt16) (name desc : String)
deriving DecidableEq, Repr

namespace Constants

/-- A symbol of a class, a name and a descriptor. -/
def member? (cs : Constants) (make : String → String → String → Symbol) (owner pair : UInt16) :
    Option Symbol := do
  let owner ← cs.className? owner
  let (name, desc) ← cs.nameAndType? pair
  return make owner name desc

/-- What a constant stands for, if all that it refers to is there. -/
def symbol? (cs : Constants) : Constant → Option Symbol
  | .classRef name => (cs.utf8? name).map .type
  | .fieldRef owner pair => cs.member? .field owner pair
  | .methodRef owner pair => cs.member? .method owner pair
  | .interfaceMethodRef owner pair => cs.member? .interfaceMethod owner pair
  | .methodType desc => (cs.utf8? desc).map .methodType
  | .dynamic bootstrap pair => (cs.nameAndType? pair).map fun p => .dynamic bootstrap p.1 p.2
  | .invokeDynamic bootstrap pair => (cs.nameAndType? pair).map fun p => .callSite bootstrap p.1 p.2
  | _ => none

end Constants

namespace Constant

/-- Whether a constant may stand for a symbol. -/
def isSymbol : Constant → Bool
  | classRef _ | fieldRef .. | methodRef .. | interfaceMethodRef .. | methodType _ | dynamic ..
  | invokeDynamic .. => true
  | _ => false

/-- Whether a constant is part of what others stand for. -/
def isPart : Constant → Bool
  | utf8 _ | nameAndType .. | classRef _ => true
  | _ => false

theorem isPart_of_isShared {c : Constant} (h : c.isShared = true) : c.isPart = true := by
  cases c <;> first | rfl | cases h

end Constant

namespace Symbol

variable (resolver : Resolver) (lambdas : List (Option String))

/-- The new name of a class, which stays if it has none. -/
def newOwner (owner : String) : String := (resolver.newClass? owner).getD owner

/-- The new name of a call site: that of the method that a lambda of its bootstrap method implements,
looked up in the interface that the call site gives an instance of. Any other one keeps its name. -/
def newCallSite (bootstrap : UInt16) (name desc : String) : String :=
  match (lambdas[bootstrap.toNat]?).join, ClassRenaming.interface? desc with
  | some implemented, some interface => (resolver.newMethod? interface name implemented).getD name
  | _, _ => name

/-- The symbol with its own name and its descriptor renamed, but its owner as it was. -/
def renameMember : Symbol → Symbol
  | type name => type name
  | field owner name desc =>
      field owner ((resolver.newField? owner name (some desc)).getD name)
        (resolver.newDescriptor desc)
  | method owner name desc =>
      method owner ((resolver.newMethod? owner name desc).getD name) (resolver.newDescriptor desc)
  | interfaceMethod owner name desc =>
      interfaceMethod owner ((resolver.newMethod? owner name desc).getD name)
        (resolver.newDescriptor desc)
  | methodType desc => methodType (resolver.newDescriptor desc)
  | dynamic bootstrap name desc => dynamic bootstrap name (resolver.newDescriptor desc)
  | callSite bootstrap name desc =>
      callSite bootstrap (newCallSite resolver lambdas bootstrap name desc)
        (resolver.newDescriptor desc)

/-- The symbol with the class that it is, or that owns it, renamed. -/
def renameOwner : Symbol → Symbol
  | type name => type (newOwner resolver name)
  | field owner name desc => field (newOwner resolver owner) name desc
  | method owner name desc => method (newOwner resolver owner) name desc
  | interfaceMethod owner name desc => interfaceMethod (newOwner resolver owner) name desc
  | s => s

/-- The symbol under its new name, which is looked up under the old name of its owner. -/
def renamed (s : Symbol) : Symbol := (s.renameMember resolver lambdas).renameOwner resolver

end Symbol

/-- Later constants that have every constant of a kind where it was. -/
def Constants.Keeps (kind : Constant → Bool) (cs cs' : Constants) : Prop :=
  ∀ (i : Nat) (c : Constant), cs[i]? = some c → kind c = true → cs'[i]? = some c

namespace Constants.Keeps

variable {kind : Constant → Bool} {a b c : Constants} {index : UInt16}

theorem refl (kind : Constant → Bool) (cs : Constants) : cs.Keeps kind cs := fun _ _ h _ => h

theorem trans (hab : a.Keeps kind b) (hbc : b.Keeps kind c) : a.Keeps kind c :=
  fun i constant h hkind => hbc i constant (hab i constant h hkind) hkind

theorem mono {wide : Constant → Bool} (h : a.Keeps wide b)
    (hkind : ∀ c, kind c = true → wide c = true) : a.Keeps kind b :=
  fun i constant hconstant hc => h i constant hconstant (hkind constant hc)

theorem utf8? (h : a.Keeps Constant.isShared b) {text : String} (htext : a.utf8? index = some text) :
    b.utf8? index = some text := by
  unfold Constants.utf8? at htext ⊢
  split at htext
  · next found hfound =>
    cases htext
    rw [show b.at? index = _ from h index.toNat _ hfound rfl]
  · cases htext

theorem nameAndType? (h : a.Keeps Constant.isShared b) {p : String × String}
    (hp : a.nameAndType? index = some p) : b.nameAndType? index = some p := by
  unfold Constants.nameAndType? at hp ⊢
  split at hp
  · next name desc hpair =>
    obtain ⟨n, hn, hp⟩ := Option.bind_eq_some_iff.1 hp
    obtain ⟨d, hd, hp⟩ := Option.bind_eq_some_iff.1 hp
    rw [show b.at? index = _ from h index.toNat _ hpair rfl]
    simp only [h.utf8? hn, h.utf8? hd]
    exact hp
  · cases hp

theorem className? (h : a.Keeps Constant.isPart b) {name : String}
    (hname : a.className? index = some name) : b.className? index = some name := by
  unfold Constants.className? at hname ⊢
  split at hname
  · next text htext =>
    rw [show b.at? index = _ from h index.toNat _ htext rfl]
    exact (h.mono fun _ => Constant.isPart_of_isShared).utf8? hname
  · cases hname

/-- A constant stands for the same symbol where all parts of symbols are kept. -/
theorem symbol? (h : a.Keeps Constant.isPart b) {constant : Constant} {s : Symbol}
    (hs : a.symbol? constant = some s) : b.symbol? constant = some s := by
  have hshared := h.mono fun _ => Constant.isPart_of_isShared
  have hmember : ∀ {make owner pair}, a.member? make owner pair = some s →
      b.member? make owner pair = some s := by
    intro make owner pair hs
    obtain ⟨o, ho, hs⟩ := Option.bind_eq_some_iff.1 hs
    obtain ⟨p, hp, hs⟩ := Option.bind_eq_some_iff.1 hs
    unfold Constants.member?
    simp only [h.className? ho, hshared.nameAndType? hp]
    exact hs
  cases constant
  case fieldRef | methodRef | interfaceMethodRef => exact hmember hs
  case classRef | methodType =>
    obtain ⟨text, htext, rfl⟩ := Option.map_eq_some_iff.1 hs
    simp only [Constants.symbol?, hshared.utf8? htext, Option.map_some]
  case dynamic | invokeDynamic =>
    obtain ⟨p, hp, rfl⟩ := Option.map_eq_some_iff.1 hs
    simp only [Constants.symbol?, hshared.nameAndType? hp, Option.map_some]
  all_goals cases hs

end Constants.Keeps

/-- A pool that is extended keeps all constants. -/
theorem Pool.Extends.keeps {p p' : Pool} (h : p.Extends p') (kind : Constant → Bool) :
    p.constants.Keeps kind p'.constants := by
  obtain ⟨more, hmore, -⟩ := h
  intro i c hc _
  rw [← Array.getElem?_toList] at hc ⊢
  rw [hmore, List.getElem?_append_left (List.getElem?_eq_some_iff.1 hc).1, hc]

/-- What is appended to a pool may serve several symbols. -/
theorem Pool.Extends.isShared {p p' : Pool} (h : p.Extends p') {i : Nat} {c : Constant}
    (hi : p.size ≤ i) (hc : p'.constants[i]? = some c) : c.isShared = true := by
  obtain ⟨more, hmore, hshared⟩ := h
  rw [← Array.getElem?_toList, hmore,
    List.getElem?_append_right (by simpa [Pool.size] using hi)] at hc
  exact hshared c (List.mem_of_getElem? hc)

end JarRemap
