import JarRemap.Proofs.Signature.Print

/-!
# Signatures and descriptors agree

A member has a descriptor and may have a signature, which says more of the same types. Erasing a
signature drops what the descriptor does not say: type parameters, type arguments and exceptions;
the names of an inner class are joined by dollar signs. It makes no difference whether a signature
is renamed and then erased or erased and then renamed, if the new names of inner classes follow
those of the classes around them.
-/

namespace JarRemap.Signature

section Tree

/-- The name of the class that a class type stands for. -/
def Suffixes.joined (outer : String) : Suffixes → String
  | .nil => outer
  | .cons name _ rest => rest.joined (outer ++ "$" ++ name.name)

theorem Identifier.unbroken (i : Identifier) : ';' ∉ i.chars :=
  fun h => i.ne_of_mem h (by decide) rfl

theorem ClassPath.unbroken (p : ClassPath) : ';' ∉ p.chars :=
  fun h => absurd (p.not_endsClassName h) (by decide)

theorem Suffixes.unbroken_joined (suffixes : Suffixes) {outer : String} (h : ';' ∉ outer.toList) :
    ';' ∉ (suffixes.joined outer).toList := by
  match suffixes with
  | .nil => exact h
  | .cons name _ rest =>
    refine rest.unbroken_joined ?_
    have hname := name.unbroken
    simp [h, hname]

mutual

/-- The type that a descriptor gives for a type of a signature; none for a type variable. -/
def ReferenceType.erasure? : ReferenceType → Option Descriptor.FieldType
  | .classType path _ suffixes =>
      some (.object ⟨suffixes.joined path.name,
        suffixes.unbroken_joined (by rw [path.toList_name]; exact path.unbroken)⟩)
  | .typeVariable _ => none
  | .array element => element.erasure?.map .array

def AnyType.erasure? : AnyType → Option Descriptor.FieldType
  | .primitive p => some (.primitive p)
  | .reference type => type.erasure?

end

/-- What a descriptor gives for what a method returns. -/
def returnedErasure? : Option AnyType → Option (Option Descriptor.FieldType)
  | none => some none
  | some type => type.erasure?.map some

/-- The descriptor of the field or the method that has a signature, if all its types are primitive,
class types or arrays of these. -/
def Generic.erasure? (g : Generic) : Option Descriptor.Typed :=
  match g.body with
  | .types first [] => first.erasure?.map .field
  | .types _ (_ :: _) => none
  | .method arguments returned _ =>
      (arguments.mapM AnyType.erasure?).bind fun arguments =>
        (returnedErasure? returned).map fun returned => .method ⟨arguments, returned⟩

end Tree

section Text

/-- What a character of a signature may stand in. -/
inductive Open where
  /-- Type parameters, up to the colon behind the name of one. -/
  | parameters
  /-- The bound of a type parameter, which may be empty. -/
  | bound
  /-- A class type, behind its letter. -/
  | classType
  /-- The type arguments of a class type. -/
  | arguments
  /-- A type variable, behind its letter. -/
  | variable
  /-- The exceptions, up to the end. -/
  | exceptions
deriving DecidableEq, Repr

/-- What is open behind a character, the innermost first. -/
def next : List Open → Char → List Open
  | [], c =>
      if c = 'L' then [.classType]
      else if c = '<' then [.parameters] else if c = '^' then [.exceptions] else []
  | .parameters :: outer, c =>
      if c = '>' then outer
      else if c = ':' then .bound :: .parameters :: outer else .parameters :: outer
  | .bound :: outer, c =>
      if c = 'L' then .classType :: outer
      else if c = 'T' then .variable :: outer
      else if c = '[' ∨ c = ':' then .bound :: outer else outer
  | .classType :: outer, c =>
      if c = ';' then outer
      else if c = '<' then .arguments :: .classType :: outer else .classType :: outer
  | .arguments :: outer, c =>
      if c = 'L' then .classType :: .arguments :: outer
      else if c = 'T' then .variable :: .arguments :: outer
      else if c = '>' then outer else .arguments :: outer
  | .variable :: outer, c => if c = ';' then outer else .variable :: outer
  | .exceptions :: outer, _ => .exceptions :: outer

/-- What erasing leaves of a character. Only the types of the member itself stay. -/
def kept : List Open → Char → List Char
  | [], c => if c = '<' ∨ c = '^' then [] else [c]
  | [.classType], c => if c = '.' then ['$'] else if c = '<' then [] else [c]
  | _, _ => []

def eraseFrom : List Open → List Char → List Char
  | _, [] => []
  | opened, c :: rest => kept opened c ++ eraseFrom (next opened c) rest

/-- Take type parameters, type arguments and exceptions out of a signature, and join the names of
inner classes. -/
def erase (signature : String) : String := String.ofList (eraseFrom [] signature.toList)

end Text

/-- A map whose names can stand in a class type. -/
def Unmarked (f : ClassMap) : Prop :=
  ∀ name image, f name = some image → ∀ c ∈ image.toList, endsClassName c = false

/-- The new name of an inner class begins with that of the class around it, or both stay. -/
def FollowsOuter (f : ClassMap) (outer name : String) : Prop :=
  (∃ rest, f (outer ++ "$" ++ name) = some (f.image outer ++ "$" ++ rest)) ∨
    f.image outer = outer ∧ f.image (outer ++ "$" ++ name) = outer ++ "$" ++ name

def Suffixes.Follow (f : ClassMap) (outer : String) : Suffixes → Prop
  | .nil => True
  | .cons name _ rest =>
      FollowsOuter f outer name.name ∧ rest.Follow f (outer ++ "$" ++ name.name)

mutual

/-- Every inner class that erasing leaves follows the class around it. -/
def ReferenceType.Follows (f : ClassMap) : ReferenceType → Prop
  | .classType path _ suffixes => suffixes.Follow f path.name
  | .typeVariable _ => True
  | .array element => element.Follows f

def AnyType.Follows (f : ClassMap) : AnyType → Prop
  | .primitive _ => True
  | .reference type => type.Follows f

end

def Body.Follows (f : ClassMap) : Body → Prop
  | .types first more => first.Follows f ∧ ∀ type ∈ more, type.Follows f
  | .method arguments returned _ =>
      (∀ type ∈ arguments, type.Follows f) ∧ ∀ type ∈ returned, type.Follows f

/-- Erasing a text leaves `left` of it, and behind it other things are open. -/
def Leaves (opened : List Open) (text left : List Char) (behind : List Open) : Prop :=
  ∀ rest, eraseFrom opened (text ++ rest) = left ++ eraseFrom behind rest

section Leaves

variable {opened middle behind outer : List Open} {text more left moreLeft : List Char} {c : Char}

theorem leaves_nil (opened : List Open) : Leaves opened [] [] opened := fun _ => rfl

theorem Leaves.append (h : Leaves opened text left middle)
    (hmore : Leaves middle more moreLeft behind) :
    Leaves opened (text ++ more) (left ++ moreLeft) behind := by
  intro rest
  rw [List.append_assoc, h, hmore, List.append_assoc]

theorem Leaves.cons (opened : List Open) (h : Leaves (next opened c) text left behind) :
    Leaves opened (c :: text) (kept opened c ++ left) behind := by
  intro rest
  rw [List.cons_append, eraseFrom, h, List.append_assoc]

/-- Nothing is left of a character that is followed by what leaves nothing. -/
theorem Leaves.drop (hkept : kept opened c = []) (h : Leaves (next opened c) text left behind) :
    Leaves opened (c :: text) left behind := by
  simpa [hkept] using h.cons opened

theorem leaves_flatMap {α : Type} {items : List α} {print : α → List Char}
    (leave : α → List Char) (h : ∀ item ∈ items, Leaves opened (print item) (leave item) opened) :
    Leaves opened (items.flatMap print) (items.flatMap leave) opened := by
  induction items with
  | nil => exact leaves_nil opened
  | cons item items ih =>
    have hitem := h item List.mem_cons_self
    exact hitem.append (ih fun other hother => h other (List.mem_cons_of_mem item hother))

/-- Characters that are kept as they are and open nothing. -/
theorem leaves_of_forall {s : List Char}
    (h : ∀ c ∈ s, kept opened c = [c] ∧ next opened c = opened) : Leaves opened s s opened := by
  induction s with
  | nil => exact leaves_nil opened
  | cons c s ih =>
    obtain ⟨hkept, hnext⟩ := h c List.mem_cons_self
    have hs := ih fun x hx => h x (List.mem_cons_of_mem c hx)
    have hcons : Leaves opened (c :: s) (kept opened c ++ s) opened :=
      .cons _ (by rwa [hnext])
    rwa [hkept] at hcons

/-- Characters that are dropped and open nothing. -/
theorem leaves_nil_of_forall {s : List Char}
    (h : ∀ c ∈ s, kept opened c = [] ∧ next opened c = opened) : Leaves opened s [] opened := by
  induction s with
  | nil => exact leaves_nil opened
  | cons c s ih =>
    obtain ⟨hkept, hnext⟩ := h c List.mem_cons_self
    have hs := ih fun x hx => h x (List.mem_cons_of_mem c hx)
    exact .drop hkept (by rwa [hnext])

/-- What is left of a text inside of a class type: all of it, unless something is open around. -/
def shown (outer : List Open) (text : List Char) : List Char := if outer = [] then text else []

theorem shown_nil (outer : List Open) : shown outer [] = [] := by
  unfold shown
  split <;> rfl

theorem shown_append (outer : List Open) (a b : List Char) :
    shown outer (a ++ b) = shown outer a ++ shown outer b := by
  unfold shown
  split <;> rfl

theorem kept_classType (outer : List Open) (c : Char) :
    kept (.classType :: outer) c =
      shown outer (if c = '.' then ['$'] else if c = '<' then [] else [c]) := by
  cases outer <;> rfl

/-- What is left of a mark in a class type. -/
theorem leaves_classType_char (outer : List Open) {c : Char} {behind : List Open}
    (hnext : next (.classType :: outer) c = behind) :
    Leaves (.classType :: outer) [c]
      (shown outer (if c = '.' then ['$'] else if c = '<' then [] else [c])) behind := by
  intro rest
  rw [List.singleton_append, eraseFrom, hnext, kept_classType]

end Leaves

section Types

variable {f : ClassMap} {opened outer : List Open}

theorem endsClassName_eq_false_iff {c : Char} :
    endsClassName c = false ↔ c ≠ '<' ∧ c ≠ '.' ∧ c ≠ ';' := by
  simp [endsClassName, and_assoc]

theorem leaves_name {name : List Char} (h : ∀ c ∈ name, endsClassName c = false) :
    Leaves (.classType :: outer) name (shown outer name) (.classType :: outer) := by
  have hchar : ∀ c ∈ name, kept (.classType :: outer) c = shown outer [c] ∧
      next (.classType :: outer) c = .classType :: outer := by
    intro c hc
    obtain ⟨hopen, hdot, hend⟩ := endsClassName_eq_false_iff.1 (h c hc)
    simp [kept_classType, next, hopen, hdot, hend]
  unfold shown at hchar ⊢
  split at hchar
  · next houter => exact (if_pos houter ▸ leaves_of_forall hchar)
  · next houter => exact (if_neg houter ▸ leaves_nil_of_forall hchar)

theorem Unmarked.image (hf : Unmarked f) {name : String}
    (hname : ∀ c ∈ name.toList, endsClassName c = false) :
    ∀ c ∈ (f.image name).toList, endsClassName c = false := by
  rw [ClassMap.image]
  cases himage : f name with
  | none => exact hname
  | some image => exact hf name image himage

theorem Unmarked.image_path (hf : Unmarked f) (path : ClassPath) :
    ∀ c ∈ (f.image path.name).toList, endsClassName c = false :=
  hf.image fun _ hc => path.not_endsClassName (path.toList_name ▸ hc)

/-- The new name of a suffix is part of the new name of a class, or the suffix itself. -/
theorem Unmarked.suffixImage (hf : Unmarked f) (w : Written) {name : String}
    (hname : ∀ c ∈ name.toList, endsClassName c = false) :
    ∀ c ∈ (suffixImage f w name).toList, endsClassName c = false := by
  have hrule := (suffixRule_iff f w name (Signature.suffixImage f w name)).2 rfl
  generalize Signature.suffixImage f w name = renamed at hrule
  intro c hc
  cases hrule with
  | behindOuter rest himage => exact hf _ _ himage c (by simp [hc])
  | behindLast image part himage _ hpart =>
    obtain ⟨-, start, himage', -⟩ := hpart
    exact hf _ _ himage c (by rw [himage']; exact List.mem_append_right _ hc)
  | kept => exact hname c hc

/-- The new names of suffixes, joined behind the name of the outer class. -/
def Suffixes.joinedText (f : ClassMap) (w : Written) : Suffixes → List Char
  | .nil => []
  | .cons name _ rest =>
      '$' :: ((suffixImage f w name.name).toList ++ rest.joinedText f (w.child f name.name))

theorem leaves_typeVariable (name : Identifier) :
    Leaves (.variable :: outer) (name.chars ++ [';']) [] outer := by
  have hname : Leaves (.variable :: outer) name.chars [] (.variable :: outer) := by
    refine leaves_nil_of_forall fun c hc => ⟨rfl, ?_⟩
    exact if_neg (name.ne_of_mem hc (by decide))
  exact hname.append (.drop rfl (leaves_nil _))

mutual

/-- Nothing is left of a type argument. -/
theorem ReferenceType.leaves_argument (hf : Unmarked f) (type : ReferenceType)
    (outer : List Open) :
    Leaves (.arguments :: outer) (type.print f) [] (.arguments :: outer) := by
  match type with
  | .classType path args suffs =>
    have hargs := args.leaves_bracket hf (.arguments :: outer)
    have hsuffs := suffs.leaves hf ⟨path.name, f.image path.name⟩ (.arguments :: outer)
    have hend : Leaves (.classType :: .arguments :: outer) [';'] [] (.arguments :: outer) :=
      .drop rfl (leaves_nil _)
    exact .drop rfl ((((leaves_name (hf.image_path path)).append hargs).append hsuffs).append hend)
  | .typeVariable name => exact .drop rfl (leaves_typeVariable name)
  | .array element => exact .drop rfl (element.leaves_argument hf outer)

theorem AnyType.leaves_argument (hf : Unmarked f) (type : AnyType) (outer : List Open) :
    Leaves (.arguments :: outer) (type.print f) [] (.arguments :: outer) := by
  match type with
  | .primitive p => cases p <;> exact .drop rfl (leaves_nil _)
  | .reference type => exact type.leaves_argument hf outer

theorem Arguments.leaves (hf : Unmarked f) (args : Arguments) (outer : List Open) :
    Leaves (.arguments :: outer) (args.print f) [] (.arguments :: outer) := by
  match args with
  | .nil => exact leaves_nil _
  | .any rest => exact .drop rfl (rest.leaves hf outer)
  | .type none type rest => exact (type.leaves_argument hf outer).append (rest.leaves hf outer)
  | .type (some bound) type rest =>
    have htypes := (type.leaves_argument hf outer).append (rest.leaves hf outer)
    cases bound <;> exact .drop rfl htypes

theorem Arguments.leaves_bracket (hf : Unmarked f) (args : Arguments) (outer : List Open) :
    Leaves (.classType :: outer) (args.bracket (args.print f)) [] (.classType :: outer) := by
  have hopen : kept (.classType :: outer) '<' = [] :=
    (kept_classType outer '<').trans (shown_nil outer)
  have hclose : Leaves (.arguments :: .classType :: outer) ['>'] [] (.classType :: outer) :=
    .drop rfl (leaves_nil _)
  have hargs := (args.leaves hf (.classType :: outer)).append hclose
  match args with
  | .nil => exact leaves_nil _
  | .any rest => exact .drop hopen hargs
  | .type bound type rest => exact .drop hopen hargs

/-- The suffixes of a class type are joined, if nothing is open around it. -/
theorem Suffixes.leaves (hf : Unmarked f) (suffs : Suffixes) (w : Written) (outer : List Open) :
    Leaves (.classType :: outer) (suffs.print f w) (shown outer (suffs.joinedText f w))
      (.classType :: outer) := by
  match suffs with
  | .nil => exact shown_nil outer ▸ leaves_nil _
  | .cons name args rest =>
    have hname : ∀ c ∈ (suffixImage f w name.name).toList, endsClassName c = false :=
      hf.suffixImage w fun c hc => name.not_endsClassName (name.toList_name ▸ hc)
    have hrest := ((leaves_name hname).append (args.leaves_bracket hf outer)).append
      (rest.leaves hf (w.child f name.name) outer)
    have hdot : Leaves (.classType :: outer) ['.'] (shown outer ['$']) (.classType :: outer) :=
      leaves_classType_char outer rfl
    have hall := hdot.append hrest
    simp only [List.append_nil, ← shown_append] at hall
    exact hall

end

/-- A class type behind its letter. -/
theorem leaves_classType (hf : Unmarked f) (path : ClassPath) (args : Arguments) (suffs : Suffixes)
    (outer : List Open) :
    Leaves (.classType :: outer)
      ((f.image path.name).toList ++ args.bracket (args.print f) ++
        suffs.print f ⟨path.name, f.image path.name⟩ ++ [';'])
      (shown outer ((f.image path.name).toList ++
        suffs.joinedText f ⟨path.name, f.image path.name⟩ ++ [';'])) outer := by
  have hend : Leaves (.classType :: outer) [';'] (shown outer [';']) outer :=
    leaves_classType_char outer rfl
  have hall := (((leaves_name (hf.image_path path)).append (args.leaves_bracket hf outer)).append
    (suffs.leaves hf ⟨path.name, f.image path.name⟩ outer)).append hend
  simpa only [List.append_nil, ← shown_append] using hall

/-- Nothing is left of a bound. -/
theorem ReferenceType.leaves_bound (hf : Unmarked f) (type : ReferenceType) :
    Leaves (.bound :: .parameters :: outer) (type.print f) [] (.parameters :: outer) := by
  match type with
  | .classType path args suffs =>
    exact .drop rfl (leaves_classType hf path args suffs (.parameters :: outer))
  | .typeVariable name => exact .drop rfl (leaves_typeVariable name)
  | .array (.primitive p) =>
    refine .drop rfl ?_
    cases p <;> exact .drop rfl (leaves_nil _)
  | .array (.reference type) => exact .drop rfl (type.leaves_bound hf)

/-- Nothing is left of a type parameter. An empty class bound ends at the colon behind it. -/
theorem TypeParameter.leaves (hf : Unmarked f) (p : TypeParameter) (outer : List Open) :
    Leaves (.parameters :: outer) (p.print f) [] (.parameters :: outer) := by
  have hname : Leaves (.parameters :: outer) p.name.chars [] (.parameters :: outer) := by
    refine leaves_nil_of_forall fun c hc => ⟨rfl, ?_⟩
    simp [next, p.name.ne_of_mem hc (by decide : isMark '>' = true),
      p.name.ne_of_mem hc (by decide : isMark ':' = true)]
  have hbound : ∀ type : ReferenceType,
      Leaves (.parameters :: outer) (printMarked f ':' type) [] (.parameters :: outer) :=
    fun type => .drop rfl (type.leaves_bound hf)
  have hbounds : ∀ types : List ReferenceType, Leaves (.parameters :: outer)
      (types.flatMap (printMarked f ':')) [] (.parameters :: outer) := by
    intro types
    have hall := leaves_flatMap (fun _ => []) fun type (_ : type ∈ types) => hbound type
    rwa [List.flatMap_eq_nil_iff.2 fun _ _ => rfl] at hall
  refine hname.append ?_
  obtain ⟨name, classBound, interfaceBounds, hbounded⟩ := p
  cases classBound with
  | some type => exact (hbound type).append (hbounds interfaceBounds)
  | none =>
    cases interfaceBounds with
    | nil => exact absurd rfl (hbounded rfl)
    | cons type types =>
      have hfirst : Leaves (.bound :: .parameters :: outer) (printMarked f ':' type) []
        (.parameters :: outer) := .drop rfl (type.leaves_bound hf)
      exact .drop rfl (hfirst.append (hbounds types))

end Types

section Members

variable {f : ClassMap}

theorem FollowsOuter.image_eq {outer name : String} (h : FollowsOuter f outer name) :
    f.image (outer ++ "$" ++ name) =
      f.image outer ++ "$" ++ suffixImage f ⟨outer, f.image outer⟩ name := by
  rcases h with ⟨rest, himage⟩ | ⟨houter, hinner⟩
  · have hrule : SuffixRule f ⟨outer, f.image outer⟩ name rest := .behindOuter rest himage
    rw [← (suffixRule_iff _ _ _ _).1 hrule, ClassMap.image, himage, Option.getD_some]
  · have hrule : SuffixRule f ⟨outer, f.image outer⟩ name name := by
      cases himage : f (outer ++ "$" ++ name) with
      | none => exact .kept himage
      | some image =>
        rw [ClassMap.image, himage, Option.getD_some] at hinner
        exact .behindOuter name (by rw [himage, hinner, houter])
    rw [← (suffixRule_iff _ _ _ _).1 hrule, hinner, houter]

/-- A class is named by the names of its suffixes if these follow each other. -/
theorem Suffixes.Follow.image_joined {suffs : Suffixes} {outer : String}
    (h : suffs.Follow f outer) :
    (f.image (suffs.joined outer)).toList =
      (f.image outer).toList ++ suffs.joinedText f ⟨outer, f.image outer⟩ := by
  match suffs with
  | .nil => exact (List.append_nil _).symm
  | .cons name args rest =>
    obtain ⟨hname, hrest⟩ := h
    have hchild : Written.child f ⟨outer, f.image outer⟩ name.name =
        ⟨outer ++ "$" ++ name.name, f.image (outer ++ "$" ++ name.name)⟩ :=
      congrArg (Written.mk _) hname.image_eq.symm
    rw [joined, hrest.image_joined, joinedText, hchild, hname.image_eq]
    simp

/-- The types of a member leave the types of its descriptor. -/
theorem ReferenceType.leaves (hf : Unmarked f) (type : ReferenceType) {d : Descriptor.FieldType}
    (hd : type.erasure? = some d) (hfollows : type.Follows f) :
    Leaves [] (type.print f) (d.print f.image) [] := by
  match type with
  | .classType path args suffs =>
    obtain rfl := Option.some.inj hd
    rw [Follows] at hfollows
    rw [Descriptor.FieldType.print, hfollows.image_joined]
    exact (leaves_classType hf path args suffs []).cons [] (c := 'L')
  | .array (.primitive p) =>
    obtain rfl := Option.some.inj hd
    cases p <;> exact .cons _ (.cons _ (leaves_nil _))
  | .array (.reference type) =>
    obtain ⟨element, helement, rfl⟩ := Option.map_eq_some_iff.1 hd
    exact (type.leaves hf helement hfollows).cons [] (c := '[')

theorem AnyType.leaves (hf : Unmarked f) (type : AnyType) {d : Descriptor.FieldType}
    (hd : type.erasure? = some d) (hfollows : type.Follows f) :
    Leaves [] (type.print f) (d.print f.image) [] := by
  cases type with
  | primitive p =>
    obtain rfl := Option.some.inj hd
    cases p <;> exact .cons _ (leaves_nil _)
  | reference type => exact type.leaves hf hd hfollows

end Members

section Plain

theorem Suffixes.follow_plain (suffs : Suffixes) (outer : String) : suffs.Follow plain outer := by
  match suffs with
  | .nil => exact trivial
  | .cons name args rest => exact ⟨.inr ⟨rfl, rfl⟩, rest.follow_plain _⟩

theorem ReferenceType.follows_plain (type : ReferenceType) : type.Follows plain := by
  match type with
  | .classType path args suffs => exact suffs.follow_plain path.name
  | .typeVariable name => exact trivial
  | .array (.primitive p) => exact trivial
  | .array (.reference type) => exact type.follows_plain

theorem AnyType.follows_plain (type : AnyType) : type.Follows plain := by
  cases type with
  | primitive p => exact trivial
  | reference type => exact type.follows_plain

theorem Body.follows_plain (body : Body) : body.Follows plain := by
  cases body with
  | types first more => exact ⟨first.follows_plain, fun type _ => type.follows_plain⟩
  | method arguments returned thrown =>
    exact ⟨fun type _ => type.follows_plain, fun type _ => type.follows_plain⟩

end Plain

namespace Sample

theorem letter_ne_nil (c : Char) : [c] ≠ [] := List.cons_ne_nil c []

theorem isMark_of_mem_letter {c : Char} (h : isMark c = false) :
    ∀ x ∈ [c], isMark x = false := List.forall_mem_singleton.2 h

def letter (c : Char) (h : isMark c = false) : Identifier :=
  ⟨[c], letter_ne_nil c, isMark_of_mem_letter h⟩

def bare : ReferenceType := .classType ⟨[], letter 'c' rfl⟩ .nil .nil

def typeVariable : ReferenceType := .typeVariable (letter 'U' rfl)

/-- An inner class of a generic class, with arguments of both. -/
def inner : ReferenceType :=
  .classType ⟨[], letter 'd' rfl⟩ (.type (some .extends) typeVariable .nil)
    (.cons (letter 'b' rfl) (.type none bare .nil) .nil)

end Sample

end JarRemap.Signature
