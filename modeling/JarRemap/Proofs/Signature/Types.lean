import JarRemap.Proofs.Descriptor.Compose
import JarRemap.Signature
import JarRemap.Proofs.Signature.Pieces

/-!
# Signatures by their grammar

Syntax trees with their text, and how the types among them are read.
-/

/-!
## The grammar of signatures

Signatures as syntax trees, and their text under new names. A tree is printed with every class name
replaced by its image; the suffixes of a class type follow the new name of the class before them,
which is handed down from left to right.
-/

namespace JarRemap.Signature

/-- The characters that mark off the parts of a signature. -/
def isMark (c : Char) : Bool := ".;[/<>:".toList.contains c

/-- The name of a package, a class, a type parameter or a type variable. -/
structure Identifier where
  chars : List Char
  nonempty : chars ≠ []
  unmarked : ∀ c ∈ chars, isMark c = false

def Identifier.name (i : Identifier) : String := String.ofList i.chars

/-- A class with the packages that it is in. -/
structure ClassPath where
  packages : List Identifier
  simple : Identifier

def ClassPath.chars (p : ClassPath) : List Char :=
  p.packages.flatMap (fun i => i.chars ++ ['/']) ++ p.simple.chars

def ClassPath.name (p : ClassPath) : String := String.ofList p.chars

/-- How a type argument is bounded. -/
inductive Wildcard where
  | extends
  | super

def Wildcard.mark : Wildcard → Char
  | .extends => '+'
  | .super => '-'

mutual

/-- A class type with its type arguments and suffixes, a type variable or an array. -/
inductive ReferenceType where
  | classType (path : ClassPath) (arguments : Arguments) (suffixes : Suffixes)
  | typeVariable (name : Identifier)
  | array (element : AnyType)

inductive AnyType where
  | primitive (p : Descriptor.Primitive)
  | reference (type : ReferenceType)

/-- Type arguments: `*`, or a type with or without a wildcard. -/
inductive Arguments where
  | nil
  | any (rest : Arguments)
  | type (bound : Option Wildcard) (type : ReferenceType) (rest : Arguments)

/-- The inner classes of a class type. -/
inductive Suffixes where
  | nil
  | cons (name : Identifier) (arguments : Arguments) (rest : Suffixes)

end

/-- A type parameter. Without a class bound it has an interface bound. -/
structure TypeParameter where
  name : Identifier
  classBound : Option ReferenceType
  interfaceBounds : List ReferenceType
  bounded : classBound = none → interfaceBounds ≠ []

/-- What follows the type parameters: the superclass and the interfaces of a class, the type of a
field, or a method, which returns nothing if it returns `none`. -/
inductive Body where
  | types (first : ReferenceType) (more : List ReferenceType)
  | method (arguments : List AnyType) (returned : Option AnyType) (thrown : List ReferenceType)

/-- The signature of a class, a field or a method. The grammar asks for a little more: a superclass
is a class type, an exception no array, and a field has no parameters. -/
structure Generic where
  parameters : List TypeParameter
  body : Body

/-- Type arguments stand in brackets if there are any. -/
def Arguments.bracket : Arguments → List Char → List Char
  | .nil, _ => []
  | _, inner => '<' :: (inner ++ ['>'])

mutual

/-- The text of a type under new names. -/
def ReferenceType.print (f : ClassMap) : ReferenceType → List Char
  | .classType path arguments suffixes =>
      'L' :: ((f.image path.name).toList ++ arguments.bracket (arguments.print f) ++
        suffixes.print f ⟨path.name, f.image path.name⟩ ++ [';'])
  | .typeVariable name => 'T' :: (name.chars ++ [';'])
  | .array element => '[' :: element.print f

def AnyType.print (f : ClassMap) : AnyType → List Char
  | .primitive p => [p.letter]
  | .reference type => type.print f

def Arguments.print (f : ClassMap) : Arguments → List Char
  | .nil => []
  | .any rest => '*' :: rest.print f
  | .type bound type rest => (bound.map Wildcard.mark).toList ++ type.print f ++ rest.print f

/-- The text of suffixes of a class type, which is known by its old and its new name. -/
def Suffixes.print (f : ClassMap) (outer : Written) : Suffixes → List Char
  | .nil => []
  | .cons name arguments rest =>
      '.' :: ((suffixImage f outer name.name).toList ++ arguments.bracket (arguments.print f) ++
        rest.print f (outer.child f name.name))

end

/-- A type behind its mark. -/
def printMarked (f : ClassMap) (mark : Char) (type : ReferenceType) : List Char :=
  mark :: type.print f

def TypeParameter.printClassBound (f : ClassMap) (p : TypeParameter) : List Char :=
  ':' :: (p.classBound.map (ReferenceType.print f)).getD []

def TypeParameter.printBounds (f : ClassMap) (p : TypeParameter) : List Char :=
  p.printClassBound f ++ p.interfaceBounds.flatMap (printMarked f ':')

def TypeParameter.print (f : ClassMap) (p : TypeParameter) : List Char :=
  p.name.chars ++ p.printBounds f

def printReturned (f : ClassMap) : Option AnyType → List Char
  | none => ['V']
  | some type => type.print f

def Body.print (f : ClassMap) : Body → List Char
  | .types first more => first.print f ++ more.flatMap (ReferenceType.print f)
  | .method arguments returned thrown =>
      '(' :: (arguments.flatMap (AnyType.print f) ++ ')' :: (printReturned f returned ++
        thrown.flatMap (printMarked f '^')))

/-- Type parameters stand in brackets if there are any. -/
def printParameters (f : ClassMap) : List TypeParameter → List Char
  | [] => []
  | parameters => '<' :: (parameters.flatMap (TypeParameter.print f) ++ ['>'])

/-- The text of a signature under new names. -/
def Generic.print (f : ClassMap) (g : Generic) : String :=
  String.ofList (printParameters f g.parameters ++ g.body.print f)

end JarRemap.Signature

/-!
## Printed types are read

The text of a type is read into pieces that print the same type under any new names. The reading is
followed along the syntax tree; `Reads` says of a part of it what is read and what is left. The length
of a type is fuel enough to read it.
-/

namespace JarRemap.Signature

/-- The text of pieces under new names. -/
def printed (f : ClassMap) (pieces : List Piece) : List Char := pieces.flatMap (Piece.render f)

@[simp] theorem printed_nil (f : ClassMap) : printed f [] = [] := rfl

@[simp] theorem printed_cons (f : ClassMap) (piece : Piece) (pieces : List Piece) :
    printed f (piece :: pieces) = piece.render f ++ printed f pieces := rfl

@[simp] theorem printed_append (f : ClassMap) (a b : List Piece) :
    printed f (a ++ b) = printed f a ++ printed f b := List.flatMap_append

@[simp] theorem render_text (f : ClassMap) (s : List Char) : (Piece.text s).render f = s := rfl

/-- The map that renames nothing. -/
def plain : ClassMap := fun _ => none

@[simp] theorem image_plain (name : String) : plain.image name = name := rfl

@[simp] theorem suffixImage_plain (outer : Written) (name : String) :
    suffixImage plain outer name = name := rfl

/-- A reading succeeds before `rest`, and what is read prints as `text`. -/
def Reads (reading : Reading) (text : ClassMap → List Char) (rest : List Char) : Prop :=
  ∃ pieces, reading = some (pieces, rest) ∧ ∀ f, printed f pieces = text f

section Readings

variable {reading : Reading} {first text : ClassMap → List Char} {middle rest : List Char}

theorem Reads.before {pieces : List Piece} (h : Reads reading first rest)
    (htext : ∀ f, printed f pieces ++ first f = text f) :
    Reads (before pieces reading) text rest := by
  obtain ⟨more, rfl, hmore⟩ := h
  exact ⟨pieces ++ more, rfl, fun f => by rw [printed_append, hmore, htext]⟩

/-- Reading on behind what was read. -/
theorem Reads.bind {next : List Piece × List Char → Reading} (h : Reads reading first middle)
    (hnext : ∀ pieces, (∀ f, printed f pieces = first f) → Reads (next (pieces, middle)) text rest) :
    Reads (reading >>= next) text rest := by
  obtain ⟨pieces, rfl, hpieces⟩ := h
  exact hnext pieces hpieces

theorem reads_some {pieces : List Piece} (htext : ∀ f, printed f pieces = text f) :
    Reads (some (pieces, rest)) text rest := ⟨pieces, rfl, htext⟩

end Readings

/-- A name is read up to the character that ends it. -/
theorem identifier?_append {stop : Char → Bool} {name rest : List Char} (hname : name ≠ [])
    (hfree : ∀ c ∈ name, stop c = false) (hrest : ∃ c ∈ rest.head?, stop c = true) :
    identifier? stop (name ++ rest) = some (name, rest) := by
  obtain ⟨c, hc, hstop⟩ := hrest
  obtain ⟨tail, rfl⟩ := List.head?_eq_some_iff.1 hc
  have hgo : ∀ x ∈ name, (!stop x) = true := fun x hx => by rw [hfree x hx]; rfl
  have htake : (name ++ c :: tail).takeWhile (fun c => !stop c) = name := by
    rw [List.takeWhile_append_of_pos hgo, List.takeWhile_cons_of_neg (by simp [hstop]),
      List.append_nil]
  have hdrop : (name ++ c :: tail).dropWhile (fun c => !stop c) = c :: tail := by
    rw [List.dropWhile_append_of_pos hgo, List.dropWhile_cons_of_neg (by simp [hstop])]
  simp [identifier?, htake, hdrop, hname]

section Names

@[simp] theorem Identifier.toList_name (i : Identifier) : i.name.toList = i.chars :=
  String.toList_ofList

@[simp] theorem ClassPath.toList_name (p : ClassPath) : p.name.toList = p.chars :=
  String.toList_ofList

theorem Identifier.ne_of_mem (i : Identifier) {c mark : Char} (hc : c ∈ i.chars)
    (hmark : isMark mark = true) : c ≠ mark := by
  rintro rfl
  exact Bool.false_ne_true ((i.unmarked c hc).symm.trans hmark)

theorem Identifier.not_endsClassName (i : Identifier) {c : Char} (hc : c ∈ i.chars) :
    endsClassName c = false := by
  have hopen : c ≠ '<' := i.ne_of_mem hc (by decide)
  have hdot : c ≠ '.' := i.ne_of_mem hc (by decide)
  have hend : c ≠ ';' := i.ne_of_mem hc (by decide)
  simp [endsClassName, hopen, hdot, hend]

theorem ClassPath.nonempty (p : ClassPath) : p.chars ≠ [] := by
  intro h
  exact p.simple.nonempty (List.append_eq_nil_iff.1 h).2

theorem ClassPath.not_endsClassName (p : ClassPath) {c : Char} (hc : c ∈ p.chars) :
    endsClassName c = false := by
  simp only [ClassPath.chars, List.mem_append, List.mem_flatMap, List.mem_singleton] at hc
  obtain ⟨i, -, hi | rfl⟩ | hsimple := hc
  · exact i.not_endsClassName hi
  · decide
  · exact p.simple.not_endsClassName hsimple

theorem isPrimitive_letter (p : Descriptor.Primitive) : isPrimitive p.letter = true := by
  cases p <;> decide

end Names

/-- The letters that reference types begin with. -/
def beginsReference (c : Char) : Prop := c = 'L' ∨ c = 'T' ∨ c = '['

theorem ReferenceType.print_eq_cons (f : ClassMap) (type : ReferenceType) :
    ∃ c rest, beginsReference c ∧ type.print f = c :: rest := by
  cases type with
  | classType path arguments suffixes => exact ⟨'L', _, .inl rfl, rfl⟩
  | typeVariable name => exact ⟨'T', _, .inr (.inl rfl), rfl⟩
  | array element => exact ⟨'[', _, .inr (.inr rfl), rfl⟩

theorem not_isPrimitive_of_beginsReference {c : Char} (h : beginsReference c) :
    isPrimitive c = false := by
  rcases h with rfl | rfl | rfl <;> decide

theorem ReferenceType.length_print_pos (f : ClassMap) (type : ReferenceType) :
    0 < (type.print f).length := by
  obtain ⟨c, rest, -, hprint⟩ := type.print_eq_cons f
  rw [hprint]
  exact Nat.succ_pos _

/-- Behind a name in a class type stands what ends the name. -/
theorem endsClassName_behind (args : Arguments) (suffs : Suffixes) (inner : List Char) (w : Written)
    (rest : List Char) :
    ∃ c ∈ (args.bracket inner ++ (suffs.print plain w ++ ';' :: rest)).head?,
      endsClassName c = true := by
  cases args with
  | nil =>
    cases suffs with
    | nil => exact ⟨';', rfl, rfl⟩
    | cons name args suffs => exact ⟨'.', rfl, rfl⟩
  | any args => exact ⟨'<', rfl, rfl⟩
  | type bound type args => exact ⟨'<', rfl, rfl⟩

/-- An array of a type that is no letter is read as that type behind a bracket. -/
theorem reference_array (type : ReferenceType) (fuel : Nat) (rest : List Char) :
    reference (fuel + 1) ('[' :: (type.print plain ++ rest)) =
      before [.text ['[']] (reference fuel (type.print plain ++ rest)) := by
  obtain ⟨c, tail, hc, hprint⟩ := type.print_eq_cons plain
  rw [hprint, List.cons_append, reference, not_isPrimitive_of_beginsReference hc]
  rfl

/-- A type argument that does not begin with a mark is read as a type. -/
theorem arguments_type (type : ReferenceType) (fuel : Nat) (rest : List Char) :
    arguments (fuel + 1) (type.print plain ++ rest) =
      (reference fuel (type.print plain ++ rest)).bind fun r => before r.1 (arguments fuel r.2) := by
  obtain ⟨c, tail, hc, hprint⟩ := type.print_eq_cons plain
  rw [hprint]
  rcases hc with rfl | rfl | rfl <;> rfl

/-- Type arguments, if there are any. -/
def optionalArguments (fuel : Nat) : List Char → Reading
  | '<' :: rest => before [.text ['<']] (arguments fuel rest)
  | s => some ([], s)

/-- The next suffix of a class type, or its end, behind what was read. -/
def nextSuffix (fuel : Nat) (outer : String) (inner : List String)
    (read : List Piece × List Char) : Reading :=
  match read.2 with
  | '.' :: rest => do
      let (name, rest) ← identifier? endsClassName rest
      let name := String.ofList name
      before (read.1 ++ [.text ['.'], .inner outer inner name])
        (suffixes fuel outer (inner ++ [name]) rest)
  | ';' :: rest => some (read.1 ++ [.text [';']], rest)
  | _ => none

theorem suffixes_succ (fuel : Nat) (outer : String) (inner : List String) (s : List Char) :
    suffixes (fuel + 1) outer inner s = optionalArguments fuel s >>= nextSuffix fuel outer inner := by
  unfold suffixes
  split
  · rfl
  · next hbracket =>
    rw [optionalArguments]
    · rfl
    · exact hbracket

/-- What the reading of type arguments has to give. -/
def Arguments.Read (args : Arguments) : Prop :=
  ∀ fuel rest, (args.print plain).length < fuel →
    Reads (arguments fuel (args.print plain ++ '>' :: rest)) (fun f => args.print f ++ ['>']) rest

/-- Type arguments are read if they are there; a suffix, or the end, is not taken for some. -/
theorem Arguments.Read.optional {args : Arguments} (h : args.Read) (suffs : Suffixes) (fuel : Nat)
    (w : Written) (rest : List Char) (hfuel : (args.bracket (args.print plain)).length ≤ fuel) :
    Reads
      (optionalArguments fuel
        (args.bracket (args.print plain) ++ (suffs.print plain w ++ ';' :: rest)))
      (fun f => args.bracket (args.print f)) (suffs.print plain w ++ ';' :: rest) := by
  have hsome : args.bracket (args.print plain) = '<' :: (args.print plain ++ ['>']) →
      Reads (optionalArguments fuel
        ('<' :: (args.print plain ++ '>' :: (suffs.print plain w ++ ';' :: rest))))
        (fun f => '<' :: (args.print f ++ ['>'])) (suffs.print plain w ++ ';' :: rest) := by
    intro hbracket
    rw [hbracket, List.length_cons, List.length_append] at hfuel
    exact (h fuel _ (by simp only [List.length_singleton] at hfuel; omega)).before fun f => rfl
  cases args with
  | nil => cases suffs <;> exact reads_some fun f => rfl
  | any args =>
    simpa only [Arguments.bracket, List.cons_append, List.append_assoc, List.nil_append]
      using hsome rfl
  | type bound type args =>
    simpa only [Arguments.bracket, List.cons_append, List.append_assoc, List.nil_append]
      using hsome rfl

mutual

/-- A reference type is read, given its length as fuel. -/
theorem ReferenceType.reads (type : ReferenceType) (fuel : Nat) (rest : List Char)
    (hfuel : (type.print plain).length ≤ fuel) :
    Reads (reference fuel (type.print plain ++ rest)) (fun f => type.print f) rest := by
  match type, fuel, hfuel with
  | .classType path args suffs, fuel + 1, hfuel =>
    have hname := identifier?_append path.nonempty (fun c => path.not_endsClassName)
      (endsClassName_behind args suffs (args.print plain) ⟨path.name, path.name⟩ rest)
    have hbehind : (args.bracket (args.print plain) ++
        suffs.print plain ⟨path.name, path.name⟩).length < fuel := by
      simp only [ReferenceType.print, image_plain, List.length_cons, List.length_append] at hfuel
      simp only [List.length_append]
      omega
    have hsuffs := suffs.reads args args.reads fuel path.name [] ⟨path.name, path.name⟩ rest hbehind
    simp only [ReferenceType.print, image_plain, ClassPath.toList_name, List.cons_append,
      List.append_assoc, List.nil_append, reference]
    rw [hname]
    exact hsuffs.before fun f => by simp [Piece.render, ClassPath.name]
  | .typeVariable name, fuel + 1, _ =>
    have hname : identifier? (· = ';') (name.chars ++ ';' :: rest) =
        some (name.chars, ';' :: rest) :=
      identifier?_append name.nonempty
        (fun c hc => decide_eq_false (name.ne_of_mem hc (by decide))) ⟨';', rfl, rfl⟩
    simp only [ReferenceType.print, List.cons_append, List.append_assoc, List.nil_append, reference]
    rw [hname]
    exact reads_some fun f => by simp
  | .array (.primitive p), fuel + 1, _ =>
    simp only [ReferenceType.print, AnyType.print, List.cons_append, List.nil_append, reference,
      isPrimitive_letter, if_true]
    exact reads_some fun f => rfl
  | .array (.reference type), fuel + 1, hfuel =>
    have htype := type.reads fuel rest (Nat.le_of_succ_le_succ hfuel)
    apply (congrArg (Reads · _ _) (reference_array type fuel rest)).mpr
    exact htype.before fun f => rfl

/-- Type arguments are read with the bracket that ends them. -/
theorem Arguments.reads (args : Arguments) (fuel : Nat) (rest : List Char)
    (hfuel : (args.print plain).length < fuel) :
    Reads (arguments fuel (args.print plain ++ '>' :: rest)) (fun f => args.print f ++ ['>']) rest := by
  match args, fuel, hfuel with
  | .nil, fuel + 1, _ => exact reads_some fun f => rfl
  | .any args, fuel + 1, hfuel =>
    have hargs := args.reads fuel rest (Nat.lt_of_succ_lt_succ hfuel)
    exact hargs.before fun f => rfl
  | .type bound type args, fuel + 1, hfuel =>
    have hpos := type.length_print_pos plain
    have hlength : (type.print plain).length + (args.print plain).length ≤ fuel := by
      simp only [Arguments.print, List.length_append] at hfuel
      omega
    have htype := type.reads fuel (args.print plain ++ '>' :: rest) (by omega)
    have hargs := args.reads fuel rest (by omega)
    cases bound with
    | none =>
      simp only [Arguments.print, Option.map_none, Option.toList_none, List.nil_append,
        List.append_assoc]
      rw [arguments_type]
      exact htype.bind fun pieces hpieces => hargs.before fun f => by simp [hpieces]
    | some bound =>
      cases bound
      all_goals
        simp only [Arguments.print, Option.map_some, Option.toList_some, List.append_assoc,
          List.cons_append, List.nil_append, Wildcard.mark, arguments]
        exact htype.bind fun pieces hpieces => hargs.before fun f => by simp [hpieces]

/-- What follows a name in a class type is read: type arguments, then the suffixes. The name so far
is known to the reading by its parts, and to the printing by its old and its new form. -/
theorem Suffixes.reads (suffs : Suffixes) (args : Arguments) (hargs : args.Read) (fuel : Nat)
    (outer : String) (inner : List String) (w : Written) (rest : List Char)
    (hfuel : (args.bracket (args.print plain) ++ suffs.print plain w).length < fuel) :
    Reads
      (suffixes fuel outer inner
        (args.bracket (args.print plain) ++ (suffs.print plain w ++ ';' :: rest)))
      (fun f => args.bracket (args.print f) ++
        (suffs.print f (inner.foldl (Written.child f) ⟨outer, f.image outer⟩) ++ [';']))
      rest := by
  match suffs, fuel, hfuel with
  | .nil, fuel + 1, hfuel =>
    have hbracket := hargs.optional .nil fuel w rest
      (by simpa [Suffixes.print] using Nat.le_of_lt_succ hfuel)
    rw [suffixes_succ]
    exact hbracket.bind fun pieces hpieces => reads_some fun f => by simp [hpieces, Suffixes.print]
  | .cons name args' suffs, fuel + 1, hfuel =>
    simp only [Suffixes.print, suffixImage_plain, List.length_append, List.length_cons] at hfuel
    have hbracket := hargs.optional (.cons name args' suffs) fuel w rest (by omega)
    have hname := identifier?_append name.nonempty (fun c => name.not_endsClassName)
      (endsClassName_behind args' suffs (args'.print plain) (w.child plain name.name) rest)
    have hsuffs := suffs.reads args' args'.reads fuel outer (inner ++ [name.name])
      (w.child plain name.name) rest (by simp only [List.length_append]; omega)
    rw [suffixes_succ]
    refine hbracket.bind fun pieces hpieces => ?_
    simp only [Suffixes.print, suffixImage_plain, Identifier.toList_name, List.cons_append,
      List.append_assoc, nextSuffix]
    rw [hname]
    exact hsuffs.before fun f => by simp [hpieces, Piece.render, Identifier.name]

end

end JarRemap.Signature
