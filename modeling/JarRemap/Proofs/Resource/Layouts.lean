import JarRemap.Proofs.Resource.Line
import JarRemap.Proofs.Text.Utf8
import JarRemap.Resource.AccessTransformer

/-!
# Layouts of access transformers

A line of an access transformer names a class, or a member in one of two layouts. In the older one
the owner and the member are one word, which reads as both if it cannot be a class; then the two
layouts mean the same.
-/

namespace JarRemap.Resource.AccessTransformer

open Text

/-! ### Names with dots -/

/-- A class name with dots. -/
def dotted (name : String) : List Char := replace '/' '.' name.toList

/-- A name that can stand in either layout. -/
def IsPlain (name : String) : Prop := IsToken name.toList ∧ '.' ∉ name.toList

instance (name : String) : Decidable (IsPlain name) := inferInstanceAs (Decidable (_ ∧ _))

theorem renamedClass_eq (d : Dictionary) (name : List Char) :
    renamedClass d name = dotted (d.newClass?.image (internal name)) := rfl

section Names

variable {name owner : String}

theorem internal_dotted (h : '.' ∉ name.toList) : internal (dotted name) = name := by
  rw [internal, dotted, replace_replace h, String.ofList_toList]

/-- The internal name that a member has if it is taken for a class. -/
theorem internal_member (howner : '.' ∉ owner.toList) {member : List Char}
    (hmember : '.' ∉ member) :
    internal (dotted owner ++ '.' :: member) = owner ++ "/" ++ String.ofList member := by
  rw [internal, replace_append, dotted, replace_replace howner, replace_cons_of_not_mem hmember,
    ← String.toList_inj]
  simp

theorem IsPlain.dotted (h : IsPlain name) : IsToken (dotted name) := by
  obtain ⟨hne, hall⟩ := isToken_iff.1 h.1
  refine isToken_iff.2 ⟨by simpa [AccessTransformer.dotted, replace] using hne, fun c hc => ?_⟩
  obtain ⟨x, hx, rfl⟩ := List.mem_map.1 hc
  split
  · decide
  · exact hall x hx

end Names

/-! ### Words -/

/-- The words a target is written as. -/
def spelled (t : AccessTransformer) : Target → List (List Char)
  | .type name => [name]
  | .member owner member => if t.legacy then [owner ++ '.' :: member] else [owner, member]

/-- An owner and a member that are read as such from one word. -/
def Joins (d : Dictionary) (owner member : List Char) : Prop :=
  '.' ∉ member ∧ ('(' ∈ member ∨
    (d.newClass? (internal owner)).isSome ∧ d.newClass? (internal (owner ++ '.' :: member)) = none)

instance (d : Dictionary) (owner member : List Char) : Decidable (Joins d owner member) :=
  inferInstanceAs (Decidable (_ ∧ _))

section Words

variable {d d' : Dictionary} {owner member : List Char} {words : List (List Char)}

theorem ofWord_of_joins (h : Joins d owner member) :
    ofWord d (owner ++ '.' :: member) = .member owner member := by
  obtain ⟨hdot, hparens | ⟨howner, hword⟩⟩ := h
  · simp only [ofWord, cutLast?_append_cons hdot, List.contains_iff_mem.2 hparens, if_true]
  · simp only [ofWord, cutLast?_append_cons hdot, howner, hword, Option.isNone_none, Bool.and_self,
      if_true, ite_self]

theorem target?_spelled (t : AccessTransformer) (modifier : List Char) (h : Joins d owner member) :
    target? d (modifier :: t.spelled (.member owner member)) =
      some (modifier, .member owner member) := by
  rw [spelled]
  split
  · exact congrArg (fun target => some (modifier, target)) (ofWord_of_joins h)
  · rfl

/-- A class that has no parenthesis behind its last slash is read as itself. -/
theorem ofWord_dotted {name : String} (hdot : '.' ∉ name.toList)
    (hclear : ∀ cut ∈ splitQualified? name.toList, '(' ∉ cut.2)
    (hknown : (d.newClass? name).isSome) : ofWord d (dotted name) = .type (dotted name) := by
  rcases cutLast?_cases '.' (dotted name) with ⟨-, hcut⟩ | ⟨front, last, hparts, hlast, hcut⟩
  · simp only [ofWord, hcut]
  · have hname : name.toList = replace '.' '/' front ++ '/' :: last := by
      have hdotted := congrArg String.toList (internal_dotted hdot)
      rw [internal, String.toList_ofList, hparts, replace_append,
        replace_cons_of_not_mem hlast] at hdotted
      exact hdotted.symm
    have hslash : '/' ∉ last := by
      intro hmem
      have hnone : '/' ∉ dotted name := not_mem_replace (by decide) name.toList
      rw [hparts] at hnone
      exact hnone (List.mem_append_right _ (List.mem_cons_of_mem _ hmem))
    have hparens : last.contains '(' = false := by
      have hnot := hclear _ (by rw [splitQualified?, hname]; exact cutLast?_append_cons hslash _)
      simpa using hnot
    have hclass : (d.newClass? name).isNone = false := by simpa using hknown
    simp only [ofWord, hcut, hparens, internal_dotted hdot, hclass, Bool.false_and,
      Bool.false_eq_true, if_false]

/-- There is a target on a line of two or three words. -/
theorem isSome_target? : (target? d words).isSome ↔ words.length = 2 ∨ words.length = 3 := by
  unfold target?
  split
  · simp
  · simp
  · next hthree htwo =>
    refine iff_of_false (by simp) ?_
    rintro (h | h)
    · obtain ⟨modifier, word, rfl⟩ := List.length_eq_two.1 h
      exact htwo _ _ rfl
    · obtain ⟨modifier, owner, name, rfl⟩ := List.length_eq_three.1 h
      exact hthree _ _ _ rfl

/-- What is read depends on which classes are known, not on their new names. -/
theorem target?_congr (h : ∀ name, (d.newClass? name).isSome = (d'.newClass? name).isSome)
    (words : List (List Char)) : target? d words = target? d' words := by
  have hword : ofWord d = ofWord d' := by
    funext word
    simp only [ofWord, ← Option.not_isSome, h]
  unfold target?
  rw [hword]

end Words

/-! ### Layouts -/

/-- The words of a member with its owner before it in one word, if both are read from that. -/
def joinedWords? (d : Dictionary) : List (List Char) → Option (List (List Char))
  | [modifier, owner, member] =>
      if Joins d owner member then some [modifier, owner ++ '.' :: member] else none
  | _ => none

/-- A line, and the same line or one with the same remark that has owner and member in one word. -/
def Respelled (d : Dictionary) (l l' : Line) : Prop :=
  l' = l ∨ l'.number = l.number ∧ l'.remark = l.remark ∧ joinedWords? d l.words = some l'.words

instance (d : Dictionary) (l l' : Line) : Decidable (Respelled d l l') :=
  inferInstanceAs (Decidable (_ ∨ _ ∧ _ ∧ _))

theorem joinedWords?_eq_some_iff {d : Dictionary} {words words' : List (List Char)} :
    joinedWords? d words = some words' ↔ ∃ modifier owner member, Joins d owner member ∧
      words = [modifier, owner, member] ∧ words' = [modifier, owner ++ '.' :: member] := by
  constructor
  · intro h
    unfold joinedWords? at h
    split at h
    · split at h
      · next hjoins =>
        cases h
        exact ⟨_, _, _, hjoins, rfl, rfl⟩
      · cases h
    · cases h
  · rintro ⟨modifier, owner, member, hjoins, rfl, rfl⟩
    exact if_pos hjoins

section Layouts

variable {t : AccessTransformer} {file : String} {d : Dictionary}
  {l l' : Line} {ls ls' : List Line}

theorem lines_cons_respelled (h : Respelled d l l')
    (hrest : lines t file d ls = lines t file d ls') :
    lines t file d (l :: ls) = lines t file d (l' :: ls') := by
  rcases h with rfl | ⟨hnumber, hremark, hjoined⟩
  · rw [lines, lines, hrest]
  · obtain ⟨modifier, owner, member, hjoins, hwords, hwords'⟩ := joinedWords?_eq_some_iff.1 hjoined
    have htarget : target? d l'.words = target? d l.words := by
      rw [hwords, hwords']
      exact congrArg (fun target => some (modifier, target)) (ofWord_of_joins hjoins)
    have hne : l.words.isEmpty = false ∧ l'.words.isEmpty = false := by simp [hwords, hwords']
    simp only [lines, hne.1, hne.2, htarget, hnumber, hrest, Line.write, hremark,
      Bool.false_eq_true, if_false]

theorem lines_respelled (h : List.Forall₂ (Respelled d) ls ls') :
    lines t file d ls = lines t file d ls' := by
  induction h with
  | nil => rfl
  | cons hline _ ih => exact lines_cons_respelled hline ih

end Layouts

/-- Both layouts mean the same. If a file has owner and member in one word on some lines on which
another one has them in two, and each of these words is read as the two, then both files are renamed
to the same, or refused for the same reason. -/
theorem layouts_agree (t : AccessTransformer) (file : String) (d : Dictionary)
    (bytes bytes' : List UInt8)
    (h : Option.Rel (fun text text' =>
        List.Forall₂ (Respelled d) (Line.all text) (Line.all text'))
      (decode? bytes) (decode? bytes')) :
    transform t file bytes d = transform t file bytes' d := by
  rw [transform, transform]
  generalize decode? bytes = read, decode? bytes' = read' at h ⊢
  cases h with
  | none => rfl
  | some hlines => exact congrArg (Except.map encode) (lines_respelled hlines)

namespace Sample

def toNamed : Dictionary where
  source := ⟨"official", false⟩
  target := ⟨"named", true⟩
  classes := .ofList [("a", "B")]
  methods := .ofList [(⟨"a", "m", some "(La;)V"⟩, "tick")]
  fieldsByName := .ofList [(("a", "f"), some "count")]

/-- A file with a remark of its own, a blank line, and lines that end in two ways. -/
def separate : List Char :=
  "#x\r\n\npublic a\r\npublic a f#y\npublic  a m(La;)V\npublic a *".toList

/-- The file with all its members behind their owners. -/
def joined : List Char :=
  "#x\r\n\npublic a\r\npublic a.f #y\npublic a.m(La;)V\npublic a.*".toList

def separateNamed : List Char :=
  "#x\n\npublic B\npublic B count #y\npublic B tick(LB;)V\npublic B *\n".toList

end Sample

open Sample in
theorem layouts_agree_joined :
    transform ⟨false⟩ "a_at.cfg" (encode joined) toNamed = .ok (encode separateNamed) := by
  have hrespelled : List.Forall₂ (Respelled toNamed) (Line.all separate) (Line.all joined) := by
    decide +kernel
  rw [← layouts_agree ⟨false⟩ "a_at.cfg" toNamed (encode separate) (encode joined)
    (by rw [decode?_encode, decode?_encode]; exact .some hrespelled)]
  decide +kernel

end JarRemap.Resource.AccessTransformer
