import JarRemap.Descriptor

/-!
# Laws of renaming descriptors

Renaming twice, for every text, and renaming once, for what the grammar allows.
-/

/-!
## Renaming descriptors twice

Renaming with one map and then with another is renaming once with both, as long as no new name holds
the semicolon that ends a name. Which names matter is told by the classes a descriptor mentions, so
two maps that agree on them, or undo each other on them, do so on the descriptor.
-/

namespace JarRemap

/-- First one map, then another. -/
def ClassMap.andThen (f g : ClassMap) : ClassMap := fun name => some (g.image (f.image name))

@[simp] theorem ClassMap.image_andThen (f g : ClassMap) (name : String) :
    (f.andThen g).image name = g.image (f.image name) := rfl

/-- A map whose names can stand in a descriptor. -/
def ClassMap.Unbroken (f : ClassMap) : Prop :=
  ∀ name renamed, f name = some renamed → ';' ∉ renamed.toList

theorem ClassMap.Unbroken.image {f : ClassMap} (h : f.Unbroken) {name : String}
    (hname : ';' ∉ name.toList) : ';' ∉ (f.image name).toList := by
  rw [ClassMap.image]
  cases hf : f name with
  | none => exact hname
  | some renamed => exact h name renamed hf

namespace Descriptor

/-- The classes between an `L` and the next semicolon, read as in `renameFrom`. -/
def classNamesFrom : Option (List Char) → List Char → List String
  | _, [] => []
  | none, c :: rest => classNamesFrom (if c = 'L' then some [] else none) rest
  | some name, c :: rest =>
      if c = ';' then String.ofList name.reverse :: classNamesFrom none rest
      else classNamesFrom (some (c :: name)) rest

/-- The classes a descriptor mentions. -/
def classNames (desc : String) : List String := classNamesFrom none desc.toList

/-- A name that is being read ends at its first semicolon. -/
theorem renameFrom_some_append (f : ClassMap) (read name rest : List Char) (h : ';' ∉ name) :
    renameFrom f (some read) (name ++ ';' :: rest) =
      (f.image (String.ofList (read.reverse ++ name))).toList ++ ';' :: renameFrom f none rest := by
  induction name generalizing read with
  | nil => simp [renameFrom]
  | cons c name ih =>
    rw [List.mem_cons, not_or] at h
    rw [List.cons_append, renameFrom, if_neg fun e => h.1 e.symm, ih (c :: read) h.2]
    simp

/-- A name that never ends is kept. -/
theorem renameFrom_some_of_not_mem (f : ClassMap) (read name : List Char) (h : ';' ∉ name) :
    renameFrom f (some read) name = read.reverse ++ name := by
  induction name generalizing read with
  | nil => simp [renameFrom]
  | cons c name ih =>
    rw [List.mem_cons, not_or] at h
    rw [renameFrom, if_neg fun e => h.1 e.symm, ih (c :: read) h.2]
    simp

/-- The two readings side by side, outside a name and inside one. The second map reads the name that
the first one wrote from its beginning. -/
theorem renameFrom_renameFrom {f : ClassMap} (g : ClassMap) (hf : f.Unbroken) (chars : List Char) :
    renameFrom g none (renameFrom f none chars) = renameFrom (f.andThen g) none chars ∧
      ∀ name, ';' ∉ name → renameFrom g (some []) (renameFrom f (some name) chars) =
        renameFrom (f.andThen g) (some name) chars := by
  induction chars with
  | nil =>
    refine ⟨rfl, fun name hname => ?_⟩
    have hreverse : ';' ∉ name.reverse := by simpa using hname
    simpa [renameFrom] using renameFrom_some_of_not_mem g [] name.reverse hreverse
  | cons c chars ih =>
    constructor
    · by_cases hL : c = 'L'
      · simpa [renameFrom, hL] using ih.2 [] List.not_mem_nil
      · simpa [renameFrom, hL] using ih.1
    · intro name hname
      by_cases hend : c = ';'
      · have hread : ';' ∉ (String.ofList name.reverse).toList := by simpa using hname
        have hnew := hf.image hread
        simp only [renameFrom, hend, if_true]
        rw [renameFrom_some_append g [] _ _ hnew, ih.1]
        simp
      · have hname' : ';' ∉ c :: name := by
          rw [List.mem_cons, not_or]
          exact ⟨fun e => hend e.symm, hname⟩
        simpa [renameFrom, hend] using ih.2 (c :: name) hname'

/-- Renaming twice is renaming once with both maps. -/
theorem rename_rename {f : ClassMap} (g : ClassMap) (hf : f.Unbroken) (desc : String) :
    rename g (rename f desc) = rename (f.andThen g) desc := by
  simp only [rename, String.toList_ofList, (renameFrom_renameFrom g hf desc.toList).1]

theorem renameFrom_congr {f g : ClassMap} (state : Option (List Char)) (chars : List Char)
    (h : ∀ name ∈ classNamesFrom state chars, f.image name = g.image name) :
    renameFrom f state chars = renameFrom g state chars := by
  induction chars generalizing state with
  | nil => cases state <;> rfl
  | cons c chars ih =>
    cases state with
    | none =>
      rw [renameFrom, renameFrom, ih _ h]
    | some name =>
      rw [renameFrom, renameFrom]
      rw [classNamesFrom] at h
      split
      · next hend =>
        rw [if_pos hend] at h
        rw [h _ List.mem_cons_self, ih none fun x hx => h x (List.mem_cons_of_mem _ hx)]
      · next hend =>
        rw [if_neg hend] at h
        exact ih _ h

/-- Maps that agree on the classes of a descriptor rename it alike. -/
theorem rename_congr {f g : ClassMap} {desc : String}
    (h : ∀ name ∈ classNames desc, f.image name = g.image name) : rename f desc = rename g desc := by
  rw [rename, rename, renameFrom_congr none desc.toList h]

theorem renameFrom_none (state : Option (List Char)) (chars : List Char) :
    renameFrom (fun _ => none) state chars = (state.getD []).reverse ++ chars := by
  induction chars generalizing state with
  | nil => cases state <;> simp [renameFrom]
  | cons c chars ih =>
    cases state with
    | none =>
      rw [renameFrom, ih]
      split <;> simp
    | some name =>
      rw [renameFrom]
      split
      · next hend => simp [ih, hend, ClassMap.image]
      · simp [ih]

/-- A map that renames nothing leaves every text as it is. -/
theorem rename_none (desc : String) : rename (fun _ => none) desc = desc := by
  rw [rename, renameFrom_none]
  simp

/-- A map that leaves the classes of a descriptor as they are leaves the descriptor. -/
theorem rename_eq_self {f : ClassMap} {desc : String}
    (h : ∀ name ∈ classNames desc, f.image name = name) : rename f desc = desc := by
  rw [rename_congr (g := fun _ => none) h, rename_none]

/-- A map that undoes another one on the classes of a descriptor undoes it on the descriptor. -/
theorem rename_rename_eq_self {f g : ClassMap} {desc : String} (hf : f.Unbroken)
    (h : ∀ name ∈ classNames desc, g.image (f.image name) = name) :
    rename g (rename f desc) = desc := by
  rw [rename_rename g hf]
  exact rename_eq_self h

end Descriptor

end JarRemap

/-!
## Renaming well-formed descriptors

What a descriptor is, by its grammar, and what renaming does to one: every class name is replaced by
its image and every other character stays, the letter `L` inside a name among them. Together with
the laws of renaming twice this says what renaming is on every text.
-/

namespace JarRemap.Descriptor

/-- A class name that can stand in a descriptor. -/
structure ClassName where
  name : String
  unbroken : ';' ∉ name.toList

/-- The types that name no class. -/
inductive Primitive where
  | byte | char | double | float | int | long | short | boolean
deriving DecidableEq, Repr

def Primitive.letter : Primitive → Char
  | byte => 'B'
  | char => 'C'
  | double => 'D'
  | float => 'F'
  | int => 'I'
  | long => 'J'
  | short => 'S'
  | boolean => 'Z'

/-- The type of a field or of an argument. -/
inductive FieldType where
  | primitive (p : Primitive)
  | object (c : ClassName)
  | array (element : FieldType)

/-- The types of the arguments of a method and of what it returns, `none` if that is nothing. -/
structure MethodType where
  arguments : List FieldType
  returned : Option FieldType

/-- A well-formed descriptor. -/
inductive Typed where
  | field (type : FieldType)
  | method (type : MethodType)

/-- The text of a type, with every class under the name that `image` gives it. -/
def FieldType.print (image : String → String) : FieldType → List Char
  | primitive p => [p.letter]
  | object c => 'L' :: (image c.name).toList ++ [';']
  | array element => '[' :: element.print image

/-- The text of what a method returns. -/
def printReturned (image : String → String) : Option FieldType → List Char
  | none => ['V']
  | some type => type.print image

/-- The text of a method descriptor. -/
def MethodType.print (image : String → String) (m : MethodType) : List Char :=
  '(' :: (m.arguments.flatMap (FieldType.print image) ++ ')' :: printReturned image m.returned)

/-- The text of a descriptor, with every class under the name that `image` gives it. -/
def Typed.print (image : String → String) : Typed → String
  | field type => String.ofList (type.print image)
  | method type => String.ofList (type.print image)

theorem Primitive.letter_ne (p : Primitive) : p.letter ≠ 'L' := by
  cases p <;> decide

/-- Outside a class name only an `L` is more than itself. -/
theorem renameFrom_none_cons (f : ClassMap) {c : Char} (h : c ≠ 'L') (rest : List Char) :
    renameFrom f none (c :: rest) = c :: renameFrom f none rest := by
  rw [renameFrom, if_neg h]

/-- A type is renamed, and the reading goes on behind it. -/
theorem FieldType.renameFrom_print (f : ClassMap) (type : FieldType) (rest : List Char) :
    renameFrom f none (type.print id ++ rest) = type.print f.image ++ renameFrom f none rest := by
  induction type with
  | primitive p => exact renameFrom_none_cons f p.letter_ne rest
  | object c =>
    have hname := renameFrom_some_append f [] c.name.toList rest c.unbroken
    simpa [FieldType.print, renameFrom] using hname
  | array element ih =>
    apply (renameFrom_none_cons f (by decide) _).trans
    exact congrArg _ ih

theorem renameFrom_arguments (f : ClassMap) (types : List FieldType) (rest : List Char) :
    renameFrom f none (types.flatMap (FieldType.print id) ++ rest) =
      types.flatMap (FieldType.print f.image) ++ renameFrom f none rest := by
  induction types with
  | nil => rfl
  | cons type types ih =>
    simp only [List.flatMap_cons, List.append_assoc, FieldType.renameFrom_print, ih]

theorem renameFrom_returned (f : ClassMap) (type : Option FieldType) :
    renameFrom f none (printReturned id type) = printReturned f.image type := by
  cases type with
  | none => exact renameFrom_none_cons f (by decide) []
  | some type => simpa [renameFrom, printReturned] using type.renameFrom_print f []

theorem MethodType.renameFrom_print (f : ClassMap) (m : MethodType) :
    renameFrom f none (m.print id) = m.print f.image := by
  have hclose : ∀ rest, renameFrom f none (')' :: rest) = ')' :: renameFrom f none rest :=
    renameFrom_none_cons f (by decide)
  apply (renameFrom_none_cons f (by decide) _).trans
  rw [renameFrom_arguments, hclose, renameFrom_returned]
  rfl

/-- Renaming a well-formed descriptor replaces its class names and nothing else. -/
theorem rename_print (f : ClassMap) (d : Typed) : rename f (d.print id) = d.print f.image := by
  cases d with
  | field type =>
    have htype : renameFrom f none (type.print id) = type.print f.image := by
      simpa [renameFrom] using type.renameFrom_print f []
    simp only [rename, Typed.print, String.toList_ofList, htype]
  | method type => simp only [rename, Typed.print, String.toList_ofList, type.renameFrom_print]

/-- Renaming is a functor on all texts and exact on descriptors: a map that changes nothing leaves
every text, two maps one after the other are their composition, and a well-formed descriptor is
printed with the image of every class name. -/
theorem rename_functorial_and_exact (f : ClassMap) :
    ((∀ name, f.image name = name) → ∀ desc, rename f desc = desc) ∧
      (f.Unbroken → ∀ g : ClassMap, ∀ desc,
        rename g (rename f desc) = rename (f.andThen g) desc) ∧
      ∀ d : Typed, rename f (d.print id) = d.print f.image :=
  ⟨fun h _ => rename_eq_self fun name _ => h name, fun hf g desc => rename_rename g hf desc,
    rename_print f⟩

/-- An array of classes, an argument without a class, and a class that keeps its name. The name that
is replaced begins with the letter that begins names, and so ends the new one. -/
def nested : Typed :=
  let named : FieldType := .object ⟨"La", by decide⟩
  .method ⟨[.array named, .primitive .int, .object ⟨"c", by decide⟩], some named⟩

theorem rename_nested :
    let f : ClassMap := fun name => if name = "La" then some "x/L" else none
    let g : ClassMap := fun name => if name = "x/L" then some "b" else none
    f.Unbroken ∧ nested.print id = "([LLa;ILc;)LLa;" ∧
      rename f (nested.print id) = nested.print f.image ∧
      rename g (rename f (nested.print id)) = rename (f.andThen g) (nested.print id) ∧
      nested.print f.image = "([Lx/L;ILc;)Lx/L;" := by
  intro f g
  have hf : f.Unbroken := by
    intro name renamed h
    simp only [f, Option.ite_none_right_eq_some, Option.some.injEq] at h
    rw [← h.2]
    decide
  have hlaws := rename_functorial_and_exact f
  exact ⟨hf, rfl, hlaws.2.2 nested, hlaws.2.1 hf g _, by cbv⟩

end JarRemap.Descriptor
