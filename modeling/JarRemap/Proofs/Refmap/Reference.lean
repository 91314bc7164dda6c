import JarRemap.Proofs.Descriptor.Compose
import JarRemap.Proofs.Text.Split
import JarRemap.Refmap

/-!
# References are renamed by what they name

Every text is a reference of one of five forms: a class by its internal name, a class by its
descriptor, and behind such a descriptor a method, a field, or a member by its name alone. Renaming
a reference is renaming what it names, and writing it in the form it had.
-/

namespace JarRemap

/-- What a reference names, and how. -/
inductive Reference where
  /-- A class by its internal name, or an array by its descriptor. -/
  | type (name : String)
  /-- A class by its descriptor. -/
  | object (owner : String)
  | method (owner name desc : String)
  | field (owner name desc : String)
  /-- A member by its name alone, with or without an asterisk behind it. -/
  | named (owner name : String) (asterisk : Bool)
deriving DecidableEq, Repr

namespace Reference

/-- A text behind the descriptor of its owner. -/
def behind (owner : String) (member : List Char) : String :=
  String.ofList ('L' :: owner.toList ++ ';' :: member)

/-- The text of a reference. -/
def print : Reference → String
  | type name => name
  | object owner => behind owner []
  | method owner name desc => behind owner (name.toList ++ desc.toList)
  | field owner name desc => behind owner (name.toList ++ ':' :: desc.toList)
  | named owner name asterisk => behind owner (name.toList ++ if asterisk then ['*'] else [])

/-- Whether the text of a reference has the form that tells what it names. A parenthesis makes it a
method, also if it stands behind a colon. -/
def Legible : Reference → Prop
  | type name => name.toList.head? ≠ some 'L' ∨ ';' ∉ name.toList
  | object owner => ';' ∉ owner.toList
  | method owner name desc =>
      ';' ∉ owner.toList ∧ '(' ∉ name.toList ∧ desc.toList.head? = some '('
  | field owner name desc =>
      ';' ∉ owner.toList ∧ '(' ∉ name.toList ∧ ':' ∉ name.toList ∧ '(' ∉ desc.toList
  | named owner name asterisk =>
      ';' ∉ owner.toList ∧ '(' ∉ name.toList ∧ ':' ∉ name.toList ∧
        (asterisk = false → name ≠ "" ∧ name.toList.getLast? ≠ some '*')

instance (ref : Reference) : Decidable ref.Legible :=
  match ref with
  | type _ => inferInstanceAs (Decidable (_ ∨ _))
  | object _ => inferInstanceAs (Decidable (¬ _))
  | method .. => inferInstanceAs (Decidable (_ ∧ _))
  | field .. => inferInstanceAs (Decidable (_ ∧ _))
  | named .. => inferInstanceAs (Decidable (_ ∧ _))

/-- A reference under new names. Members are looked up under the owner and the descriptor that they
had, and in all that the owner inherits from. -/
def renamed (options : RefmapOptions) (names : Resolver) : Reference → Reference
  | type name => .type ((names.newClass? name).getD name)
  | object owner => .object ((names.newClass? owner).getD owner)
  | method owner name desc =>
      .method ((names.newClass? owner).getD owner) ((names.newMethod? owner name desc).getD name)
        (names.newDescriptor desc)
  | field owner name desc =>
      .field ((names.newClass? owner).getD owner) ((names.newField? owner name (some desc)).getD name)
        (names.newDescriptor desc)
  | named owner name asterisk =>
      let found := (names.newField? owner name none).or
        (if options.wildcards then names.newMethodNamed? owner name else none)
      .named ((names.newClass? owner).getD owner) (found.getD name) asterisk

/-- Every text has one of the forms. -/
theorem exists_legible (text : String) : ∃ ref : Reference, ref.Legible ∧ ref.print = text := by
  by_cases htype : (type text).Legible
  · exact ⟨type text, htype, rfl⟩
  · rw [Legible, not_or, not_not, not_not] at htype
    obtain ⟨hhead, hsemicolon⟩ := htype
    obtain ⟨rest, hrest⟩ := List.head?_eq_some_iff.1 hhead
    rw [hrest] at hsemicolon
    obtain ⟨owner, member, rfl, howner⟩ :=
      List.eq_append_cons_of_mem ((List.mem_cons.1 hsemicolon).resolve_left (by decide))
    have hbehind : behind (.ofList owner) member = text := by
      rw [behind, String.toList_ofList, List.cons_append, ← hrest, String.ofList_toList]
    rw [← hbehind]
    -- the owner is told apart, and what is behind it is looked through for the marks in their order
    by_cases hmethod : '(' ∈ member
    · obtain ⟨name, desc, rfl, hname⟩ := List.eq_append_cons_of_mem hmethod
      exact ⟨method (.ofList owner) (.ofList name) (.ofList ('(' :: desc)),
        by simpa [Legible] using ⟨howner, hname⟩, by simp [print]⟩
    by_cases hfield : ':' ∈ member
    · obtain ⟨name, desc, rfl, hname⟩ := List.eq_append_cons_of_mem hfield
      simp only [List.mem_append, List.mem_cons, not_or] at hmethod
      exact ⟨field (.ofList owner) (.ofList name) (.ofList desc),
        by simpa [Legible] using ⟨howner, hmethod.1, hname, hmethod.2.2⟩, by simp [print]⟩
    by_cases hasterisk : member.getLast? = some '*'
    · obtain ⟨name, rfl⟩ := List.getLast?_eq_some_iff.1 hasterisk
      simp only [List.mem_append, not_or] at hmethod hfield
      exact ⟨named (.ofList owner) (.ofList name) true,
        by simpa [Legible] using ⟨howner, hmethod.1, hfield.1⟩, by simp [print]⟩
    by_cases hobject : member = []
    · exact ⟨object (.ofList owner), by simpa [Legible] using howner, by rw [hobject]; rfl⟩
    · refine ⟨named (.ofList owner) (.ofList member) false, ?_, by simp [print]⟩
      simpa [Legible, String.ofList_eq_empty_iff]
        using ⟨howner, hmethod, hfield, hobject, hasterisk⟩

end Reference

namespace Refmaps

open Reference

section

variable (r : Refmaps) (names : Resolver) {owner name desc : String}

theorem renameReference_type (h : (type name).Legible) :
    r.renameReference names name = (names.newClass? name).getD name := by
  unfold renameReference
  split
  · next rest hrest =>
    have hsemicolon : ';' ∉ rest := by
      rw [Legible, hrest] at h
      exact fun hmem => h.resolve_left (by simp) (List.mem_cons_of_mem 'L' hmem)
    rw [Text.cut?_of_not_mem hsemicolon]
  · rfl

/-- What stands behind an owner is renamed on its own. -/
theorem renameReference_behind (h : ';' ∉ owner.toList) (member : List Char) :
    r.renameReference names (behind owner member) =
      behind ((names.newClass? owner).getD owner) (r.renameMember names owner member) := by
  unfold renameReference behind
  rw [String.toList_ofList, List.cons_append]
  simp only [Text.cut?_append_cons h member, String.ofList_toList]

theorem renameMember_method (h : '(' ∉ name.toList) (hdesc : desc.toList.head? = some '(') :
    r.renameMember names owner (name.toList ++ desc.toList) =
      ((names.newMethod? owner name desc).getD name).toList ++ (names.newDescriptor desc).toList := by
  obtain ⟨rest, hrest⟩ := List.head?_eq_some_iff.1 hdesc
  have hcontains : (name.toList ++ '(' :: rest).contains '(' = true := by simp
  rw [renameMember, hrest, if_neg (by simp), if_pos hcontains, Text.takeWhile_ne_append_cons h,
    Text.dropWhile_ne_append_cons h, ← hrest, String.ofList_toList, String.ofList_toList]

theorem renameMember_field (hname : '(' ∉ name.toList) (hcolon : ':' ∉ name.toList)
    (hdesc : '(' ∉ desc.toList) :
    r.renameMember names owner (name.toList ++ ':' :: desc.toList) =
      ((names.newField? owner name (some desc)).getD name).toList ++
        ':' :: (names.newDescriptor desc).toList := by
  have hcontains : ¬ (name.toList ++ ':' :: desc.toList).contains '(' = true := by
    simp [hname, hdesc]
  rw [renameMember, if_neg (by simp), if_neg hcontains, Text.cut?_append_cons hcolon]
  dsimp only
  rw [String.ofList_toList, String.ofList_toList]

theorem renameMember_named (hname : '(' ∉ name.toList) (hcolon : ':' ∉ name.toList)
    {asterisk : Bool} (hend : asterisk = false → name ≠ "" ∧ name.toList.getLast? ≠ some '*') :
    r.renameMember names owner (name.toList ++ if asterisk then ['*'] else []) =
      (((names.newField? owner name none).or
        (if r.options.wildcards then names.newMethodNamed? owner name else none)).getD name).toList ++
        if asterisk then ['*'] else [] := by
  cases asterisk with
  | true =>
    have hcontains : ¬ (name.toList ++ ['*']).contains '(' = true := by simp [hname]
    have hcut : Text.cut? ':' (name.toList ++ ['*']) = none :=
      Text.cut?_of_not_mem (by simpa using hcolon)
    rw [if_pos rfl, renameMember, if_neg (by simp), if_neg hcontains, hcut,
      Text.stripEnd?_append]
    simp only [String.ofList_toList, Option.orElse_eq_orElse, Option.orElse_eq_or]
  | false =>
    obtain ⟨hne, hlast⟩ := hend rfl
    have hempty : ¬ name.toList.isEmpty = true := by simpa [List.isEmpty_iff] using hne
    have hcontains : ¬ name.toList.contains '(' = true := by simpa using hname
    have hstrip : Text.stripEnd? ['*'] name.toList = none := by
      refine Option.eq_none_iff_forall_ne_some.2 fun rest hrest => hlast ?_
      rw [← Text.stripEnd?_eq_some_iff.1 hrest, List.getLast?_concat]
    rw [if_neg Bool.false_ne_true, List.append_nil, List.append_nil, renameMember, if_neg hempty,
      if_neg hcontains, Text.cut?_of_not_mem hcolon, hstrip]
    simp only [String.ofList_toList, Option.orElse_eq_orElse, Option.orElse_eq_or, List.append_nil]

end

/-- A reference is renamed by renaming what it names. -/
theorem renameReference_print (r : Refmaps) (names : Resolver) {ref : Reference}
    (h : ref.Legible) :
    r.renameReference names ref.print = (ref.renamed r.options names).print := by
  cases ref
  case type name => exact r.renameReference_type names h
  case object owner => exact r.renameReference_behind names h []
  case method owner name desc =>
    obtain ⟨howner, hname, hdesc⟩ := h
    rw [print, renameReference_behind r names howner, renameMember_method r names hname hdesc]
    rfl
  case field owner name desc =>
    obtain ⟨howner, hname, hcolon, hdesc⟩ := h
    rw [print, renameReference_behind r names howner, renameMember_field r names hname hcolon hdesc]
    rfl
  case named owner name asterisk =>
    obtain ⟨howner, hname, hcolon, hend⟩ := h
    rw [print, renameReference_behind r names howner, renameMember_named r names hname hcolon hend]
    rfl

end Refmaps

/-- Names under which everything keeps its own. -/
structure Resolver.RenamesNothing (names : Resolver) : Prop where
  classes : ∀ name, (names.newClass? name).getD name = name
  descriptors : ∀ desc, names.newDescriptor desc = desc
  fields : ∀ owner name desc, (names.newField? owner name desc).getD name = name
  methods : ∀ owner name desc, (names.newMethod? owner name desc).getD name = name
  methodsNamed : ∀ owner name, (names.newMethodNamed? owner name).getD name = name

/-- A dictionary that has no other name for anything. -/
structure Dictionary.KeepsNames (d : Dictionary) : Prop where
  classes : ∀ name renamed, d.newClass? name = some renamed → renamed = name
  fields : ∀ owner name desc renamed, d.newField? owner name desc = some renamed → renamed = name
  methods : ∀ owner name desc renamed, d.newMethod? owner name desc = some renamed → renamed = name
  methodsNamed : ∀ owner name renamed, d.newMethodNamed? owner name = some renamed → renamed = name

/-- Where the dictionary has no other names, none are found in any hierarchy. -/
theorem Dictionary.KeepsNames.renamesNothing {names : Resolver} (h : names.dictionary.KeepsNames) :
    names.RenamesNothing := by
  have hgetD : ∀ {found : Option String} {name}, (∀ renamed, found = some renamed → renamed = name) →
      found.getD name = name := by
    intro found name hfound
    cases found with
    | none => rfl
    | some renamed => exact hfound renamed rfl
  have hsearch : ∀ {f : String → Option String} {owner name renamed},
      (∀ declarer renamed, f declarer = some renamed → renamed = name) →
      (names.hierarchy.ancestors owner).findSome? f = some renamed → renamed = name := by
    intro f owner name renamed hf hfound
    obtain ⟨declarer, -, hdeclarer⟩ := List.exists_of_findSome?_eq_some hfound
    exact hf declarer renamed hdeclarer
  have hdescriptor : ∀ desc, names.newDescriptor desc = desc := fun desc =>
    Descriptor.rename_eq_self fun name _ => hgetD (h.classes name)
  constructor
  case classes =>
    intro name
    refine hgetD fun renamed hfound => ?_
    obtain ⟨hfound, -⟩ := Option.filter_eq_some_iff.1 hfound
    split at hfound
    · rw [← Option.some.inj hfound, hdescriptor]
    · exact h.classes name renamed hfound
  case descriptors => exact hdescriptor
  case fields =>
    exact fun owner name desc => hgetD fun renamed =>
      hsearch fun declarer => h.fields declarer name desc
  case methods =>
    intro owner name desc
    refine hgetD fun renamed hfound => ?_
    unfold Resolver.newMethod? at hfound
    split at hfound
    · cases hfound
    · rw [Option.orElse_eq_orElse, Option.orElse_eq_or, Option.or_eq_some_iff] at hfound
      rcases hfound with hexact | ⟨-, hany⟩
      · refine hsearch (fun declarer renamed hdeclarer => ?_) hexact
        refine h.methods declarer name desc renamed ?_
        rw [Dictionary.newMethod?, hdeclarer]
        rfl
      · exact hsearch (fun declarer => h.methods declarer name desc) hany
  case methodsNamed =>
    exact fun owner name => hgetD fun renamed =>
      hsearch fun declarer => h.methodsNamed declarer name

theorem Reference.renamed_eq_self {options : RefmapOptions} {names : Resolver}
    (h : names.RenamesNothing) (ref : Reference) : ref.renamed options names = ref := by
  cases ref
  case type name => simp only [renamed, h.classes]
  case object owner => simp only [renamed, h.classes]
  case method owner name desc => simp only [renamed, h.classes, h.descriptors, h.methods]
  case field owner name desc => simp only [renamed, h.classes, h.descriptors, h.fields]
  case named owner name asterisk =>
    have hfield := h.fields owner name none
    have hmethod := h.methodsNamed owner name
    cases hfound : names.newField? owner name none with
    | some found =>
      rw [hfound, Option.getD_some] at hfield
      simp [renamed, h.classes, hfound, hfield]
    | none =>
      cases hwildcards : options.wildcards with
      | true => simp [renamed, h.classes, hfound, hwildcards, hmethod]
      | false => simp [renamed, h.classes, hfound, hwildcards]

namespace Refmaps

open Reference

/-- References are renamed exactly: names that rename nothing leave every text as it is, and every
text is a reference of one of the forms, which is renamed by renaming what it names. -/
theorem renameReference_exact (r : Refmaps) (names : Resolver) :
    (names.RenamesNothing → ∀ text, r.renameReference names text = text) ∧
      (∀ ref : Reference, ref.Legible →
        r.renameReference names ref.print = (ref.renamed r.options names).print) ∧
      ∀ text, ∃ ref : Reference, ref.Legible ∧ ref.print = text := by
  refine ⟨fun hnothing text => ?_, fun ref => renameReference_print r names, exists_legible⟩
  obtain ⟨ref, hlegible, rfl⟩ := exists_legible text
  rw [renameReference_print r names hlegible, renamed_eq_self hnothing]

namespace Sample

/-- A class that declares a field and two methods of one name, and one that inherits them. -/
def names : Resolver where
  dictionary :=
    { source := ⟨"named", true⟩, target := ⟨"intermediary", false⟩
      classes := .ofList [("a", "A"), ("b", "B")]
      fields := .ofList [(⟨"a", "f", some "[La;"⟩, "f_1")]
      methods := .ofList [(⟨"a", "m", some "(La;)Lb;"⟩, "m_1"), (⟨"a", "m", some "()V"⟩, "m_1")]
      fieldsByName := .ofList [(("a", "f"), some "f_1")]
      methodsByName := .ofList [(("a", "m"), some "m_1")] }
  hierarchy := ({} : Hierarchy).insert "b" ["a", "b"]

/-- A field of a class whose name has a parenthesis. -/
def parenthesised : Resolver where
  dictionary :=
    { source := ⟨"official", false⟩, target := ⟨"named", true⟩
      fields := .ofList [(⟨"o", "n", some "La(b;"⟩, "m")] }

/-- The class has the name that it had. -/
def same : Resolver where
  dictionary :=
    { source := ⟨"named", true⟩, target := ⟨"intermediary", false⟩
      classes := ({} : OrderedMap String String).insert "a" "a" }
  hierarchy := names.hierarchy

theorem keepsNames_same : same.dictionary.KeepsNames := by
  refine ⟨fun name renamed hfound => ?_, fun _ _ desc _ hfound => ?_, fun _ _ _ _ hfound => ?_,
    fun _ _ _ hfound => ?_⟩
  · have hclass : same.dictionary.newClass? name = if name = "a" then some "a" else none :=
      OrderedMap.get?_insert _ _ _ _
    rw [hclass] at hfound
    split at hfound
    · next hname => rw [← Option.some.inj hfound, hname]
    · cases hfound
  · cases desc <;> cases hfound
  · cases hfound
  · cases hfound

end Sample

open Sample in
theorem renameReference_exact_inherited :
    let r : Refmaps := ⟨⟨true, true⟩, [], {}⟩
    let refs : List Reference := [.type "[Lb;", .object "b", .method "b" "m" "(La;)Lb;",
      .field "b" "f" "[La;", .named "b" "f" true, .named "b" "m" false]
    (∀ ref ∈ refs, ref.Legible) ∧
      refs.map print = ["[Lb;", "Lb;", "Lb;m(La;)Lb;", "Lb;f:[La;", "Lb;f*", "Lb;m"] ∧
      refs.map (fun ref => r.renameReference names ref.print) =
        ["[LB;", "LB;", "LB;m_1(LA;)LB;", "LB;f_1:[LA;", "LB;f_1*", "LB;m_1"] ∧
      same.RenamesNothing ∧ r.renameReference same "La;m(La;" = "La;m(La;" := by
  intro r refs
  have hlegible : ∀ ref ∈ refs, ref.Legible := by
    decide
  refine ⟨hlegible, by decide, ?_, keepsNames_same.renamesNothing, ?_⟩
  · rw [List.map_congr_left fun ref href => (renameReference_exact r names).2.1 ref (hlegible ref href)]
    decide +kernel
  · exact (renameReference_exact r same).1 keepsNames_same.renamesNothing _

open Sample in
/-- The field of a class whose name has a parenthesis is taken for a method, and not found. -/
theorem parenthesis_makes_method :
    let r : Refmaps := ⟨⟨true, false⟩, [], {}⟩
    let desc := (Descriptor.Typed.field (.object ⟨"a(b", by decide⟩)).print id
    let ref : Reference := .field "o" "n" desc
    ref.print = "Lo;n:La(b;" ∧ (Reference.named "o" "n" false).Legible ∧
      parenthesised.newField? "o" "n" (some desc) = some "m" ∧
      (ref.renamed r.options parenthesised).print = "Lo;m:La(b;" ∧
      r.renameReference parenthesised ref.print = "Lo;n:La(b;" := by
  decide +kernel

end Refmaps

end JarRemap
