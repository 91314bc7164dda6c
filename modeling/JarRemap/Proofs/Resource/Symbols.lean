import JarRemap.Proofs.Dictionary.Layered
import JarRemap.Proofs.Resource.Layouts

/-!
# Access transformers survive chains of hops

A line of an access transformer is about a symbol, and is written with the symbol under its new
names. The next hop reads the same symbol there, unless this is written as one of another kind. So
two hops are one if they are for the symbols of the file.
-/

namespace JarRemap.Resource.AccessTransformer

open Text

/-! ### Symbols -/

/-- What a target stands for, by internal names. -/
inductive Symbol where
  | type (name : String)
  /-- All fields of a class, or all its methods. -/
  | all (owner : String) (methods : Bool)
  | field (owner name : String)
  | method (owner name desc : String)
deriving DecidableEq, Repr

namespace Symbol

/-- The class, or the one that the members belong to. -/
def owner : Symbol → String
  | type name => name
  | all owner _ => owner
  | field owner _ => owner
  | method owner _ _ => owner

/-- The word for the members. -/
def member? : Symbol → Option String
  | type _ => none
  | all _ methods => some (if methods then "*()" else "*")
  | field _ name => some name
  | method _ name desc => some (name ++ desc)

/-- The name of the member, if it has one. -/
def memberName? : Symbol → Option String
  | field _ name | method _ name _ => some name
  | _ => none

/-- The member that a word stands for. -/
def ofMember (owner : String) (member : List Char) : Symbol :=
  if member = "*".toList then .all owner false
  else if member = "*()".toList then .all owner true
  else
    let name := String.ofList (member.takeWhile (· ≠ '('))
    let desc := String.ofList (member.dropWhile (· ≠ '('))
    if desc.isEmpty then .field owner name else .method owner name desc

def ofTarget : Target → Symbol
  | .type name => .type (internal name)
  | .member owner member => ofMember (internal owner) member

def target (s : Symbol) : Target :=
  match s.member? with
  | none => .type (dotted s.owner)
  | some member => .member (dotted s.owner) member.toList

/-- A symbol under its new names. -/
def renamed (d : Dictionary) : Symbol → Symbol
  | type name => .type (d.newClass?.image name)
  | all owner methods => .all (d.newClass?.image owner) methods
  | field owner name =>
      .field (d.newClass?.image owner) ((d.newField? owner name none).getD name)
  | method owner name desc =>
      .method (d.newClass?.image owner) ((d.newMethod? owner name desc).getD name)
        (d.newDescriptor desc)

@[simp] theorem owner_renamed (d : Dictionary) (s : Symbol) :
    (s.renamed d).owner = d.newClass?.image s.owner := by
  cases s <;> rfl

@[simp] theorem owner_ofMember (owner : String) (member : List Char) :
    (ofMember owner member).owner = owner := by
  unfold ofMember
  split
  · rfl
  · split
    · rfl
    · dsimp only
      split <;> rfl

theorem member?_renamed_ofMember (d : Dictionary) (owner : String) (member : List Char) :
    ((ofMember owner member).renamed d).member? =
      some (String.ofList (renamedMember d owner member)) := by
  unfold ofMember renamedMember
  split
  · next h => simp [h, renamed, member?]
  · next hfields =>
    split
    · next h => simp [h, renamed, member?]
    · next hmethods =>
      rw [if_neg (not_or.2 ⟨hfields, hmethods⟩)]
      dsimp only
      split
      · simp [renamed, member?]
      · simp [renamed, member?]

/-- Targets are written by renaming what they stand for. -/
theorem write_eq (t : AccessTransformer) (d : Dictionary) (target : Target) :
    t.write d target =
      [' '].intercalate (t.spelled ((ofTarget target).renamed d).target) := by
  cases target with
  | type name =>
    rw [ofTarget, renamed, Symbol.target, member?, spelled, List.intercalate_singleton]
    rfl
  | member owner member =>
    have hmember := member?_renamed_ofMember d (internal owner) member
    rw [ofTarget, Symbol.target, hmember, owner_renamed, owner_ofMember]
    simp only [spelled, write, renamedClass_eq, String.toList_ofList]
    cases t.legacy <;> simp

/-! ### Symbols are read again -/

/-- A symbol that a dictionary takes on: a class of the dictionary, or a member, whose owner is one
and whose path is none if it has no descriptor. Its words can stand in lines. -/
structure Fits (d : Dictionary) (s : Symbol) : Prop where
  owner : IsPlain s.owner
  member : ∀ member ∈ s.member?, IsPlain member
  unopened : ∀ name ∈ s.memberName?, '(' ∉ name.toList
  known : s.member? = none → (d.newClass? s.owner).isSome
  apart : ∀ member ∈ s.member?, '(' ∈ member.toList ∨
    (d.newClass? s.owner).isSome ∧ d.newClass? (s.owner ++ "/" ++ member) = none

instance (d : Dictionary) (s : Symbol) : Decidable (s.Fits d) :=
  decidable_of_iff (_ ∧ _ ∧ _ ∧ _ ∧ _)
    ⟨fun h => ⟨h.1, h.2.1, h.2.2.1, h.2.2.2.1, h.2.2.2.2⟩, fun h => ⟨h.1, h.2, h.3, h.4, h.5⟩⟩

/-- A symbol that is not written as one of another kind: no parenthesis behind the last slash of a
class, where a method would have it, and no member with the word for all of them. -/
def IsClear : Symbol → Prop
  | type name => ∀ cut ∈ splitQualified? name.toList, '(' ∉ cut.2
  | all .. => True
  | s => ∀ member ∈ s.member?, member ≠ "*" ∧ member ≠ "*()"

instance : (s : Symbol) → Decidable s.IsClear
  | type name => inferInstanceAs (Decidable (∀ cut ∈ splitQualified? name.toList, '(' ∉ cut.2))
  | all .. => instDecidableTrue
  | field owner name => inferInstanceAs (Decidable (∀ member ∈ (field owner name).member?, _))
  | method owner name desc =>
      inferInstanceAs (Decidable (∀ member ∈ (method owner name desc).member?, _))

/-- A symbol as it is read: the descriptor begins with the parenthesis that the name ends at. -/
def IsRead : Symbol → Prop
  | method _ _ desc => desc.toList.head? = some '('
  | _ => True

theorem isRead_ofMember (owner : String) (member : List Char) :
    (ofMember owner member).IsRead := by
  unfold ofMember
  split
  · trivial
  · split
    · trivial
    · dsimp only
      split
      · trivial
      · next hne =>
        rw [IsRead, String.toList_ofList]
        cases hdesc : member.dropWhile (· ≠ '(') with
        | nil => exact absurd (congrArg (fun desc => (String.ofList desc).isEmpty) hdesc) hne
        | cons c rest =>
          have hc := List.head_dropWhile_not (· ≠ '(') (hdesc ▸ List.cons_ne_nil c rest)
          simp only [hdesc, List.head_cons, decide_eq_false_iff_not, not_not] at hc
          rw [hc]
          rfl

theorem isRead_ofTarget : (target : Target) → (ofTarget target).IsRead
  | .type _ => trivial
  | .member owner member => isRead_ofMember (internal owner) member

/-- Renaming does not touch the parenthesis. -/
theorem IsRead.renamed {s : Symbol} (h : s.IsRead) (d : Dictionary) : (s.renamed d).IsRead := by
  cases s with
  | type | all | field => trivial
  | method owner name desc =>
    obtain ⟨rest, hrest⟩ := List.head?_eq_some_iff.1 h
    rw [Symbol.renamed, IsRead, Dictionary.newDescriptor, Descriptor.rename, hrest,
      Descriptor.renameFrom_none_cons _ (by decide), String.toList_ofList]
    rfl

section Reading

variable {d : Dictionary} {s : Symbol}

theorem Fits.joins (h : s.Fits d) {member : String} (hmember : member ∈ s.member?) :
    Joins d (dotted s.owner) member.toList := by
  have hdot := (h.member member hmember).2
  rw [Joins, internal_dotted h.owner.2, internal_member h.owner.2 hdot, String.ofList_toList]
  exact ⟨hdot, h.apart member hmember⟩

/-- The word for the members is read as them. -/
theorem ofMember_of_mem (hread : s.IsRead) (hfits : s.Fits d) (hclear : s.IsClear)
    {member : String} (hmember : member ∈ s.member?) : ofMember s.owner member.toList = s := by
  cases s with
  | type name => cases hmember
  | all owner methods => cases hmember; cases methods <;> rfl
  | field owner name =>
    obtain rfl : name = member := Option.some.inj hmember
    have hne := hclear name rfl
    have hname : '(' ∉ name.toList := hfits.unopened name rfl
    rw [ofMember, if_neg (mt String.toList_inj.1 hne.1), if_neg (mt String.toList_inj.1 hne.2),
      takeWhile_ne_of_not_mem hname, dropWhile_ne_of_not_mem hname, String.ofList_toList]
    rfl
  | method owner name desc =>
    cases hmember
    have hne := hclear _ rfl
    have hname : '(' ∉ name.toList := hfits.unopened name rfl
    obtain ⟨rest, hrest⟩ := List.head?_eq_some_iff.1 hread
    have hword : (name ++ desc).toList = name.toList ++ '(' :: rest := by
      rw [String.toList_append, hrest]
    have hdesc : String.ofList ('(' :: rest) = desc := by
      rw [← hrest, String.ofList_toList]
    rw [ofMember, if_neg (mt String.toList_inj.1 hne.1), if_neg (mt String.toList_inj.1 hne.2),
      hword, takeWhile_ne_append_cons hname, dropWhile_ne_append_cons hname, String.ofList_toList,
      hdesc, if_neg]
    · rfl
    · rw [← hdesc]
      simp

/-- What a symbol is written as stands for it. -/
theorem ofTarget_target (hread : s.IsRead) (hfits : s.Fits d) (hclear : s.IsClear) :
    ofTarget s.target = s := by
  have howner : internal (dotted s.owner) = s.owner := internal_dotted hfits.owner.2
  cases s with
  | type name => exact congrArg type howner
  | all | field | method =>
    have hword := ofMember_of_mem hread hfits hclear rfl
    exact (congrArg (fun owner => ofMember owner _) howner).trans hword

/-- The words that a symbol is written as are read again, in either layout. -/
theorem target?_spelled_target (t : AccessTransformer) (modifier : List Char) (hfits : s.Fits d)
    (hclear : s.IsClear) :
    target? d (modifier :: t.spelled s.target) = some (modifier, s.target) := by
  cases s with
  | type name =>
    refine congrArg (fun target => some (modifier, target)) ?_
    exact ofWord_dotted hfits.owner.2 hclear (hfits.known rfl)
  | all | field | method => exact target?_spelled t modifier (hfits.joins rfl)

theorem Fits.isToken_of_mem_spelled (h : s.Fits d) (t : AccessTransformer) :
    ∀ w ∈ t.spelled s.target, IsToken w := by
  have howner := h.owner.dotted
  cases hmember : s.member? with
  | none => simpa only [target, hmember, spelled, List.forall_mem_singleton] using howner
  | some member =>
    have htoken := (h.member member hmember).1
    have hjoined : IsToken (dotted s.owner ++ '.' :: member.toList) := by
      refine howner.append fun c hc => ?_
      rcases List.mem_cons.1 hc with rfl | hc
      · decide
      · exact (isToken_iff.1 htoken).2 c hc
    simp only [target, hmember, spelled]
    split
    · exact List.forall_mem_singleton.2 hjoined
    · exact List.forall_mem_cons.2 ⟨howner, List.forall_mem_singleton.2 htoken⟩

end Reading

end Symbol

/-! ### Hops -/

/-- A line with its symbol under the new names. -/
def afterHop (t : AccessTransformer) (d : Dictionary) (l : Line) : Line :=
  match target? d l.words with
  | some (modifier, target) =>
      l.reword ' ' (modifier :: t.spelled ((Symbol.ofTarget target).renamed d).target)
  | none => l

/-- The symbols that a text mentions. -/
def symbols (d : Dictionary) (text : List Char) : List Symbol :=
  (Line.all text).filterMap fun l => (target? d l.words).map fun read => .ofTarget read.2

section Hops

variable {t : AccessTransformer} {file : String} {d ab bc ac : Dictionary} {l : Line}
  {modifier : List Char} {target : Target}

theorem afterHop_eq (t : AccessTransformer) (h : target? d l.words = some (modifier, target)) :
    t.afterHop d l =
      l.reword ' ' (modifier :: t.spelled ((Symbol.ofTarget target).renamed d).target) := by
  rw [afterHop, h]

theorem afterHop_of_eq_nil (t : AccessTransformer) (d : Dictionary) (h : l.words = []) :
    t.afterHop d l = l := by
  simp [afterHop, h, target?]

theorem spelled_ne_nil (t : AccessTransformer) : (target : Target) → t.spelled target ≠ []
  | .type _ => List.cons_ne_nil _ _
  | .member _ _ => by
    rw [spelled]
    split <;> exact List.cons_ne_nil _ _

theorem write_eq_keep (t : AccessTransformer) (h : target? d l.words = some (modifier, target)) :
    l.write ' ' (modifier ++ ' ' :: t.write d target) = (t.afterHop d l).keep := by
  rw [afterHop_eq t h, Symbol.write_eq, Line.write, Line.keep, Line.reword]
  obtain ⟨word, words, hwords⟩ := List.exists_cons_of_ne_nil
    (spelled_ne_nil t ((Symbol.ofTarget target).renamed d).target)
  rw [hwords, List.intercalate_cons_cons]
  simp

/-- Lines without words are kept, and all others are renamed if each has a target. -/
theorem lines_eq_ok (t : AccessTransformer) (file : String) (d : Dictionary) {ls : List Line}
    (h : ∀ l ∈ ls, l.words = [] ∨ (target? d l.words).isSome) :
    lines t file d ls = .ok ((ls.map (t.afterHop d)).flatMap Line.keep) := by
  induction ls with
  | nil => rfl
  | cons l ls ih =>
    obtain ⟨hl, hls⟩ := List.forall_mem_cons.1 h
    rw [List.map_cons, List.flatMap_cons, lines, ih hls]
    rcases hl with hwords | hread
    · rw [if_pos (by simp [hwords]), afterHop_of_eq_nil t d hwords]
      rfl
    · obtain ⟨⟨modifier, target⟩, hread⟩ := Option.isSome_iff_exists.1 hread
      have hne : ¬ l.words.isEmpty := by
        intro hempty
        rw [List.isEmpty_iff.1 hempty] at hread
        cases hread
      rw [if_neg hne, hread, ← write_eq_keep t hread]
      rfl

/-- The words of a renamed line are read as the renamed symbol. -/
theorem target?_afterHop (h : target? ab l.words = some (modifier, target))
    (hfits : ((Symbol.ofTarget target).renamed ab).Fits bc)
    (hclear : ((Symbol.ofTarget target).renamed ab).IsClear) :
    target? bc (t.afterHop ab l).words =
      some (modifier, ((Symbol.ofTarget target).renamed ab).target) := by
  rw [afterHop_eq t h]
  exact Symbol.target?_spelled_target t modifier hfits hclear

/-- Two hops of a line are one. -/
theorem afterHop_afterHop (h : target? ab l.words = some (modifier, target))
    (hknown : ∀ name, (ab.newClass? name).isSome = (ac.newClass? name).isSome)
    (hfits : ((Symbol.ofTarget target).renamed ab).Fits bc)
    (hclear : ((Symbol.ofTarget target).renamed ab).IsClear)
    (hcomposes : ((Symbol.ofTarget target).renamed ab).renamed bc =
      (Symbol.ofTarget target).renamed ac) :
    t.afterHop bc (t.afterHop ab l) = t.afterHop ac l := by
  have hsecond := target?_afterHop (t := t) h hfits hclear
  have hdirect : target? ac l.words = some (modifier, target) := by rw [← target?_congr hknown, h]
  have hsymbol := Symbol.ofTarget_target ((Symbol.isRead_ofTarget target).renamed ab) hfits hclear
  rw [afterHop_eq t hsecond, afterHop_eq t h, afterHop_eq t hdirect, Line.reword_reword, hsymbol,
    hcomposes]

theorem mem_words_of_target? {words : List (List Char)}
    (h : target? d words = some (modifier, target)) : modifier ∈ words := by
  unfold target? at h
  split at h
  · cases h
    exact List.mem_cons_self
  · cases h
    exact List.mem_cons_self
  · cases h

theorem reads_afterHop (hl : l.Reads) (h : target? ab l.words = some (modifier, target))
    (hfits : ((Symbol.ofTarget target).renamed ab).Fits bc) : (t.afterHop ab l).Reads := by
  rw [afterHop_eq t h]
  refine hl.reword (.inr rfl) (List.forall_mem_cons.2 ⟨?_, hfits.isToken_of_mem_spelled t⟩)
  have hmem := mem_words_of_target? h
  rw [← hl.ofText] at hmem
  exact Line.isToken_of_mem_words hmem

@[simp] theorem number_afterHop (t : AccessTransformer) (d : Dictionary) (l : Line) :
    (t.afterHop d l).number = l.number := by
  unfold afterHop
  split <;> rfl

theorem transform_encode (t : AccessTransformer) (file : String) (d : Dictionary)
    {text : List Char} (h : ∀ l ∈ Line.all text, l.words = [] ∨ (target? d l.words).isSome) :
    transform t file (encode text) d =
      .ok (encode (((Line.all text).map (t.afterHop d)).flatMap Line.keep)) := by
  rw [transform, decode?_encode]
  exact congrArg (Except.map encode) (lines_eq_ok t file d h)

theorem mem_symbols {text : List Char} (hl : l ∈ Line.all text)
    (h : target? d l.words = some (modifier, target)) : .ofTarget target ∈ symbols d text :=
  List.mem_filterMap.2 ⟨l, hl, by rw [h]; rfl⟩

/-- A text that a hop writes is read as the renamed lines, if another dictionary takes on the
symbols that they mention. -/
theorem all_flatMap_afterHop (t : AccessTransformer) {text : List Char}
    (hreturns : returnsEndLines text = true)
    (h : ∀ l ∈ Line.all text, l.words = [] ∨ ∃ modifier target,
      target? ab l.words = some (modifier, target) ∧
        ((Symbol.ofTarget target).renamed ab).Fits bc) :
    Line.all (((Line.all text).map (t.afterHop ab)).flatMap Line.keep) =
      (Line.all text).map (t.afterHop ab) := by
  have hnumbers : ((Line.all text).map (t.afterHop ab)).map Line.number =
      (Line.all text).map Line.number := by simp
  refine Line.all_flatMap_keep_of_numbers (List.forall_mem_map.2 fun l hl => ?_) hnumbers
  have hreads := Line.reads_of_mem_all hreturns hl
  rcases h l hl with hwords | ⟨modifier, target, hread, hfits⟩
  · rwa [afterHop_of_eq_nil t ab hwords]
  · exact reads_afterHop hreads hread hfits

/-- Two hops are one. Between dictionaries from one namespace of a tree, a file whose lines have no
words, or two or three, goes through a hop and a second one, and becomes what the direct hop makes
of it, if the hops compose on its symbols, the second dictionary takes on the symbols between them,
and none of these is written as one of another kind. -/
theorem two_hops_are_one (t : AccessTransformer) (file : String) {tree : MappingTree}
    {a b c : String} (hab : Dictionary.ofTree tree a b = .ok ab)
    (hac : Dictionary.ofTree tree a c = .ok ac) {text : List Char}
    (hreturns : returnsEndLines text = true)
    (hshape : ∀ l ∈ Line.all text, l.words = [] ∨ l.words.length = 2 ∨ l.words.length = 3)
    (hsymbols : ∀ s ∈ symbols ab text, (s.renamed ab).Fits bc ∧ (s.renamed ab).IsClear ∧
      (s.renamed ab).renamed bc = s.renamed ac) :
    ∃ middle out, transform t file (encode text) ab = .ok (encode middle) ∧
      transform t file (encode middle) bc = .ok (encode out) ∧
      transform t file (encode text) ac = .ok (encode out) := by
  have htarget : ∀ d : Dictionary, ∀ l ∈ Line.all text, l.words = [] ∨ (target? d l.words).isSome :=
    fun _ l hl => (hshape l hl).imp_right isSome_target?.2
  have hread : ∀ l ∈ Line.all text, l.words = [] ∨ ∃ modifier target,
      target? ab l.words = some (modifier, target) ∧ .ofTarget target ∈ symbols ab text := by
    refine fun l hl => (htarget ab l hl).imp_right fun hread => ?_
    obtain ⟨⟨modifier, target⟩, hread⟩ := Option.isSome_iff_exists.1 hread
    exact ⟨modifier, target, hread, mem_symbols hl hread⟩
  have hmiddle := all_flatMap_afterHop t hreturns fun l hl =>
    (hread l hl).imp_right fun ⟨modifier, target, hread, hs⟩ =>
      ⟨modifier, target, hread, (hsymbols _ hs).1⟩
  have hsecond : ∀ l ∈ Line.all text, ((t.afterHop ab l).words = [] ∨
      (target? bc (t.afterHop ab l).words).isSome) ∧
        t.afterHop bc (t.afterHop ab l) = t.afterHop ac l := by
    intro l hl
    rcases hread l hl with hwords | ⟨modifier, target, hread, hs⟩
    · simp only [afterHop_of_eq_nil _ _ hwords, hwords, true_or, and_self]
    · obtain ⟨hfits, hclear, hcomposes⟩ := hsymbols _ hs
      have hknown := Dictionary.isSome_newClass?_eq hab hac
      refine ⟨.inr ?_, afterHop_afterHop hread hknown hfits hclear hcomposes⟩
      exact Option.isSome_iff_exists.2 ⟨_, target?_afterHop hread hfits hclear⟩
  refine ⟨_, _, transform_encode t file ab (htarget ab), transform_encode t file bc ?_, ?_⟩
  · rw [hmiddle]
    exact List.forall_mem_map.2 fun l hl => (hsecond l hl).1
  · rw [transform_encode t file ac (htarget ac), hmiddle, List.map_map]
    exact congrArg (fun ls => Except.ok (encode (ls.flatMap Line.keep)))
      (List.map_congr_left fun l hl => (hsecond l hl).2).symm

namespace Sample

/-- The dictionary between two namespaces of a tree. -/
def dictionary (tree : MappingTree) (source target : String) : Dictionary :=
  .ofColumns tree ⟨source, tree.isNamed source⟩ ⟨target, tree.isNamed target⟩
    (tree.namespaces.idxOf source) (tree.namespaces.idxOf target)

theorem ofTree_eq_dictionary {tree : MappingTree} {source target : String}
    (hsource : source ∈ tree.namespaces) (htarget : target ∈ tree.namespaces) :
    Dictionary.ofTree tree source target = .ok (dictionary tree source target) := by
  rw [Dictionary.ofTree_eq, if_pos hsource, if_pos htarget, dictionary]

/-- The names of a class, a field and a method in three namespaces. -/
def tree : MappingTree where
  namespaces := ["official", "searge", "named"]
  classes := .ofList [("a", {
    names := [some "a", some "x/C_1", some "B"]
    fields := [{ names := [some "f", some "f_1", some "count"], desc := some "I" }]
    methods := [{ names := [some "m", some "m_1", some "tick"], desc := some "(La;)V" }] })]

def joinedNamed : List Char :=
  "#x\n\npublic B\npublic B.count #y\npublic B.tick(LB;)V\npublic B.*\n".toList

/-- A class and a field that are not clear in the second of three namespaces. -/
def unclear : MappingTree where
  namespaces := ["official", "searge", "named"]
  classes := .ofList [
    ("k", { names := [some "k", some "x/y(z", some "w"] }),
    ("l", {
      names := [some "l", some "u", some "v"]
      fields := [{ names := [some "f", some "*", some "q"] }] })]

def unclearFile : List Char := "public k\npublic l f\n".toList

end Sample

open Sample in
theorem two_hops_are_one_joined :
    ∃ middle, transform ⟨true⟩ "a_at.cfg" (encode joined) (dictionary tree "official" "searge") =
        .ok (encode middle) ∧
      transform ⟨true⟩ "a_at.cfg" (encode middle) (dictionary tree "searge" "named") =
        .ok (encode joinedNamed) := by
  have hfirst : Dictionary.ofTree tree "official" "searge" = .ok (dictionary tree _ _) :=
    ofTree_eq_dictionary (by decide) (by decide)
  have hdirect : Dictionary.ofTree tree "official" "named" = .ok (dictionary tree _ _) :=
    ofTree_eq_dictionary (by decide) (by decide)
  have hsymbols : ∀ s ∈ symbols (dictionary tree "official" "searge") joined,
      (s.renamed (dictionary tree "official" "searge")).Fits (dictionary tree "searge" "named") ∧
      (s.renamed (dictionary tree "official" "searge")).IsClear ∧
      (s.renamed (dictionary tree "official" "searge")).renamed (dictionary tree "searge" "named") =
        s.renamed (dictionary tree "official" "named") := by
    decide +kernel
  obtain ⟨middle, out, hmiddle, hout, hdirect⟩ := two_hops_are_one ⟨true⟩ "a_at.cfg" hfirst hdirect
    (by decide +kernel) (by decide +kernel) hsymbols
  have hnamed : transform ⟨true⟩ "a_at.cfg" (encode joined) (dictionary tree "official" "named") =
      .ok (encode joinedNamed) := by
    decide +kernel
  rw [hdirect] at hnamed
  exact ⟨middle, hmiddle, hout.trans hnamed⟩

open Sample in
/-- Dictionaries may take on all symbols of a file, and compose on them, without two hops being one:
a class may go by the name of a method of another one, and a field by that of all fields. -/
theorem two_hops_differ_unclear :
    let first := dictionary unclear "official" "searge"
    let second := dictionary unclear "searge" "named"
    let direct := dictionary unclear "official" "named"
    Dictionary.ofTree unclear "official" "searge" = .ok first ∧
    Dictionary.ofTree unclear "searge" "named" = .ok second ∧
    Dictionary.ofTree unclear "official" "named" = .ok direct ∧
    (∀ s ∈ symbols first unclearFile, s.Fits first ∧ (s.renamed first).Fits second ∧
      (s.renamed first).renamed second = s.renamed direct) ∧
    transform ⟨false⟩ "a_at.cfg" (encode unclearFile) first =
      .ok (encode "public x.y(z\npublic u *\n".toList) ∧
    transform ⟨false⟩ "a_at.cfg" (encode "public x.y(z\npublic u *\n".toList) second =
      .ok (encode "public x y(z\npublic v *\n".toList) ∧
    transform ⟨false⟩ "a_at.cfg" (encode unclearFile) direct =
      .ok (encode "public w\npublic v q\n".toList) := by
  have hofTree : ∀ source ∈ unclear.namespaces, ∀ target ∈ unclear.namespaces,
      Dictionary.ofTree unclear source target = .ok (dictionary unclear source target) :=
    fun _ hsource _ htarget => ofTree_eq_dictionary hsource htarget
  refine ⟨hofTree _ (by decide) _ (by decide), hofTree _ (by decide) _ (by decide),
    hofTree _ (by decide) _ (by decide), ?_⟩
  decide +kernel

end Hops

end JarRemap.Resource.AccessTransformer
