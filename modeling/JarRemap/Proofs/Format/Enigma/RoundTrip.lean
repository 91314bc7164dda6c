import JarRemap.Proofs.Format.Enigma.Forest
import JarRemap.Proofs.Format.WordLine

/-!
# Forests are read as they were written

The text of a forest is read back as the records of the forest. Between two elements it is known
which records have been read, and that the classes around are open, the outermost first, perhaps
with more inside of them. An element closes what is deeper than itself, so the class that it belongs
to is the innermost one that is left.
-/

namespace JarRemap.Format.Enigma

section Lines

theorem line_eq (depth : Nat) (words : List Token) :
    line depth words = wordLine depth (words.map fun word => ⟨word.text, word.isWord⟩) := by
  rw [line, wordLine, List.map_map]
  rfl

theorem words_line (depth : Nat) (words : List Token) :
    Text.words (line depth words) = words.map fun word => word.text.toList := by
  rw [line_eq, words_wordLine, List.map_map]
  rfl

theorem not_mem_line {x : Char} (depth : Nat) {words : List Token} (htab : x ≠ '\t')
    (hblank : x ≠ ' ') (h : ∀ word ∈ words, x ∉ word.text.toList) : x ∉ line depth words := by
  rw [line_eq]
  exact not_mem_wordLine depth _ htab hblank (List.forall_mem_map.2 h)

theorem content_of_not_mem {text : List Char} (h : '#' ∉ text) : content text = text := by
  rw [content]
  split
  · rfl
  · rw [List.takeWhile_eq_self_iff]
    intro c hc
    simpa using fun hsign : c = '#' => h (hsign ▸ hc)

/-- A line of words is cut into its words. -/
theorem contentWords_line (depth : Nat) (words : List Token) :
    contentWords (line depth words) = words.map fun word => word.text.toList := by
  have hcontent : content (line depth words) = line depth words :=
    content_of_not_mem (not_mem_line depth (by decide) (by decide) fun word _ => word.unmarked)
  rw [contentWords, hcontent, words_line, List.filter_eq_self]
  intro w hw
  obtain ⟨word, -, rfl⟩ := List.mem_map.1 hw
  rw [word.unmodified, Bool.not_false]

/-- The depth of a line is the one that it was written at. -/
theorem depth_line (depth : Nat) (word : Token) (words : List Token) :
    Text.depth (line depth (word :: words)) = depth := by
  rw [line_eq, List.map_cons, depth_wordLine]

theorem step_type (s : State) (depth : Nat) (simple : Token) (readable : Option Token) :
    step s (line depth (.type :: simple :: readable.toList)) =
      classLine s depth simple.text (readable.map Token.text) := by
  rw [step, contentWords_line, depth_line]
  cases readable <;> simp [Token.type]

theorem step_member (s : State) (depth : Nat) {kind : Token}
    (hkind : kind = .field ∨ kind = .method) (words : List Token) :
    step s (line depth (kind :: words)) =
      memberLine s depth kind.text (words.map fun word => word.text.toList) := by
  rw [step, contentWords_line, depth_line]
  rcases hkind with rfl | rfl <;> simp [Token.field, Token.method]

theorem step_argument (s : State) (depth : Nat) (index : UInt16) (name : Token) :
    step s (line depth [.argument, .ofIndex index, name]) =
      argumentLine s depth [Text.decimal index.toNat, name.text.toList] := by
  rw [step, contentWords_line, depth_line]
  simp [Token.argument, Token.ofIndex]

/-- A line of a comment goes to the record that was read last, if that is less deep. -/
theorem step_comment {s : State} {index above depth : Nat} (hlast : s.last = some (index, above))
    (habove : above < depth) (c : CommentLine) :
    step s (c.line depth) =
      .ok { s with records := s.records.modify index (addComment c.text) } := by
  have hline : c.line depth =
      List.replicate depth '\t' ++ ("COMMENT".toList ++ ' ' :: c.text.toList) :=
    List.append_assoc _ _ _
  have hstart : Text.trimStart (c.line depth) = "COMMENT".toList ++ ' ' :: c.text.toList := by
    rw [hline, Text.trimStart_replicate_append (by decide)]
    rfl
  have hwords : contentWords (c.line depth) = "COMMENT".toList ::
      (Text.words c.text.toList).filter fun word => !"ACC:".toList.isPrefixOf word := by
    have hcontent : content (c.line depth) = c.line depth := by
      rw [content, hstart]
      exact if_pos rfl
    rw [contentWords, hcontent, hline, Text.words_replicate_append (by decide),
      Text.words_append_blank (by decide)]
    rfl
  have hdepth : Text.depth (c.line depth) = depth := by
    rw [hline]
    exact Text.depth_replicate_append depth rfl
  have htext : Text.trimStart (' ' :: c.text.toList) = c.text.toList := by
    rw [Text.trimStart, List.dropWhile_cons_of_pos (by decide)]
    exact c.trimmed
  have hdrop : dropBytes? "COMMENT".utf8ByteSize (Text.trimStart (c.line depth)) =
      some (' ' :: c.text.toList) := by
    rw [hstart]
    rfl
  rw [step, hwords, hdepth]
  simp only [String.ofList_toList, commentLine, hlast, habove, Option.filter_some_pos, decide_true,
    hdrop, htext]

end Lines

section Chains

/-- A class under its full names. -/
def full (chain : List Heading) : Outer := ⟨official chain, named? chain⟩

/-- What is open inside of some classes, the innermost of which is the first. -/
def opened : List Heading → List Outer
  | [] => []
  | c :: around => opened around ++ [full (c :: around)]

@[simp] theorem length_opened (around : List Heading) : (opened around).length = around.length := by
  induction around with
  | nil => rfl
  | cons c around ih => simp [opened, ih]

theorem getLast?_opened {around : List Heading} (h : around ≠ []) :
    (opened around).getLast? = some (full around) := by
  cases around with
  | nil => exact absurd rfl h
  | cons c around => exact List.getLast?_concat

theorem official_cons {around : List Heading} (h : around ≠ []) (c : Heading) :
    official (c :: around) = official around ++ "$" ++ c.simple.text := by
  have hnames : (around.reverse.map fun c => c.simple.text) ≠ [] := by simpa using h
  rw [official, List.reverse_cons, List.map_append, List.map_singleton,
    String.intercalate_append_of_ne_nil hnames (List.cons_ne_nil _ _), String.intercalate_singleton]
  rfl

/-- The full names of a class come from those of the class around it. -/
theorem child_full {around : List Heading} (h : around ≠ []) (c : Heading) :
    (full around).child c.simple.text (c.readable.map Token.text) = full (c :: around) := by
  obtain ⟨next, outer, rfl⟩ := List.exists_cons_of_ne_nil h
  simp only [Outer.child, full, official_cons h, named?]
  cases c.readable <;> cases named? (next :: outer) <;> simp

end Chains

/-- These records have been read, the classes around are open, perhaps with more inside of them, and
arguments belong to this method, if there is to be one. -/
structure At (records : List Record) (around : List Heading) (method? : Option Method) (s : State) :
    Prop where
  records : s.records = records.toArray
  opened : opened around <+: s.classes
  method : ∀ m, method? = some m → s.method = some m

section Steps

variable {records before : List Record} {around : List Heading} {method? : Option Method}
  {s : State} {r : Record} {depth : Nat}

theorem At.take (h : At records around method? s) :
    s.classes.take around.length = Enigma.opened around := by
  rw [← length_opened]
  exact (List.prefix_iff_eq_take.1 h.opened).symm

theorem At.not_lt (h : At records around method? s) : ¬ s.classes.length < around.length := by
  have hlength := h.opened.length_le
  rw [length_opened] at hlength
  exact Nat.not_lt.2 hlength

/-- What is open inside does not matter, and neither does the method. -/
theorem At.outer {c : Heading} (h : At records (c :: around) method? s) :
    At records around none s where
  records := h.records
  opened := (List.prefix_append _ _).trans h.opened
  method _ hm := by cases hm

theorem At.outside (h : At records around method? s) : At records around none s :=
  { h with method := fun _ hm => by cases hm }

theorem addComment_comment? (comments : List CommentLine) (c : CommentLine) (r : Record) :
    addComment c.text { r with comment := comment? comments } =
      { r with comment := comment? (comments ++ [c]) } := by
  cases comments with
  | nil => rfl
  | cons first comments =>
    have hjoin := String.intercalate_append_of_ne_nil (s := "\n")
      (l := (first :: comments).map CommentLine.text) (m := [c.text]) (by simp) (by simp)
    simp only [addComment, comment?, List.isEmpty_cons, List.cons_append, Bool.false_eq_true,
      if_false]
    rw [← List.cons_append, List.map_append, List.map_singleton, hjoin,
      String.intercalate_singleton]

/-- The comment of an element goes to its record, line by line. -/
theorem leads_comments (read comments : List CommentLine) :
    Leads step
      (fun s => At (before ++ [{ r with comment := comment? read }]) around method? s ∧
        s.last = some (before.length, depth))
      (comments.map (CommentLine.line (depth + 1)))
      (At (before ++ [{ r with comment := comment? (read ++ comments) }]) around method?) := by
  induction comments generalizing read with
  | nil =>
    rw [List.append_nil]
    exact leads_nil fun _ hs => hs.1
  | cons c comments ih =>
    have hread := ih (read ++ [c])
    rw [List.append_assoc, List.singleton_append] at hread
    refine .cons (fun s hs => ?_) hread
    obtain ⟨hat, hlast⟩ := hs
    refine ⟨_, step_comment hlast (Nat.lt_succ_self depth) c, { hat with records := ?_ }, hlast⟩
    simp [hat.records, addComment_comment?, List.modify_eq_take_cons_drop]

/-- If its line adds a record, an element adds that record with its comment. -/
theorem leads_described {P : State → Prop} {words : List Token} {comments : List CommentLine}
    (h : ∀ s, P s → ∃ s', step s (line depth words) = .ok s' ∧
      At (before ++ [{ r with comment := none }]) around method? s' ∧
      s'.last = some (before.length, depth)) :
    Leads step P (described depth words comments)
      (At (before ++ [{ r with comment := comment? comments }]) around method?) :=
  .cons h (leads_comments [] comments)

end Steps

section Elements

variable (records : List Record) {around : List Heading} {method? : Option Method} {s : State}

theorem classLine_eq {records : List Record} (hs : At records around method? s) (c : Heading) :
    classLine s around.length c.simple.text (c.readable.map Token.text) =
      .ok { s.push around.length { c.record around with comment := none } with
        classes := opened (c :: around)
        method := none } := by
  rw [classLine, if_neg hs.not_lt, hs.take]
  by_cases haround : around = []
  · subst haround
    rfl
  · simp only [getLast?_opened haround, child_full haround]
    rfl

/-- A class is opened inside of the classes around it. -/
theorem leads_heading (c : Heading) :
    Leads step (At records around none) (c.lines around.length)
      (At (records ++ [c.record around]) (c :: around) none) := by
  refine leads_described (r := c.record around) fun s hs => ?_
  refine ⟨_, (step_type s _ c.simple c.readable).trans (classLine_eq hs c), ⟨?_, ?_, ?_⟩, ?_⟩
  · simp [State.push, hs.records]
  · exact List.prefix_refl _
  · exact fun _ hm => by cases hm
  · simp [State.push, hs.records]

/-- A member belongs to the innermost class around it, whatever was open inside of that. -/
theorem memberLine_eq {records : List Record} (hs : At records around method? s)
    (haround : around ≠ []) (kind : String) (m : Member) :
    memberLine s around.length kind
        ((m.name :: (m.readable.toList ++ [m.desc])).map fun word => word.text.toList) =
      .ok (
        let s := { s with classes := opened around }
        if kind = "FIELD" then
          { s.push around.length { m.fieldRecord (official around) with comment := none } with
            method := none }
        else
          { s.push around.length { m.methodRecord (official around) with comment := none } with
            method := some ⟨official around, m.name.text, m.desc.text, around.length⟩ }) := by
  rw [memberLine, hs.take, getLast?_opened haround]
  simp only [if_neg hs.not_lt]
  cases hreadable : m.readable <;>
    simp [Member.fieldRecord, Member.methodRecord, Member.names, full, hreadable]

theorem leads_field (f : Member) (haround : around ≠ []) :
    Leads step (At records around none) (f.lines around.length .field)
      (At (records ++ [f.fieldRecord (official around)]) around none) := by
  refine leads_described (r := f.fieldRecord (official around)) fun s hs => ?_
  refine ⟨_, (step_member s _ (.inl rfl) _).trans (memberLine_eq hs haround _ f), ⟨?_, ?_, ?_⟩, ?_⟩
  · simp [State.push, hs.records, Token.field]
  · exact List.prefix_refl _
  · exact fun _ hm => by cases hm
  · simp [State.push, hs.records, Token.field]

/-- Arguments may follow a method. -/
theorem leads_method (m : Member) (haround : around ≠ []) :
    Leads step (At records around none) (m.lines around.length .method)
      (At (records ++ [m.methodRecord (official around)]) around
        (some ⟨official around, m.name.text, m.desc.text, around.length⟩)) := by
  refine leads_described (r := m.methodRecord (official around)) fun s hs => ?_
  refine ⟨_, (step_member s _ (.inr rfl) _).trans (memberLine_eq hs haround _ m), ⟨?_, ?_, ?_⟩, ?_⟩
  · simp [State.push, hs.records, Token.method]
  · exact List.prefix_refl _
  · exact fun _ hm => hm
  · simp [State.push, hs.records, Token.method]

theorem argumentLine_eq {records : List Record} {owner : String} {m : Member} {depth : Nat}
    (hs : At records around (some ⟨owner, m.name.text, m.desc.text, depth⟩) s) (a : Argument) :
    argumentLine s (depth + 1) [Text.decimal a.index.toNat, a.name.text.toList] =
      .ok (s.push (depth + 1) { a.record owner m with comment := none }) := by
  simp only [argumentLine, hs.method _ rfl, Option.filter_some_pos, decide_true]
  simp only [readIndex, Text.index?_decimal, String.ofList_toList]
  rfl

/-- An argument belongs to the method above it. -/
theorem leads_argument {owner : String} {m : Member} {depth : Nat} (a : Argument) :
    Leads step (At records around (some ⟨owner, m.name.text, m.desc.text, depth⟩))
      (a.lines (depth + 1))
      (At (records ++ [a.record owner m]) around
        (some ⟨owner, m.name.text, m.desc.text, depth⟩)) := by
  refine leads_described (r := a.record owner m) fun s hs => ?_
  refine ⟨_, (step_argument s _ a.index a.name).trans (argumentLine_eq hs a),
    { hs with records := ?_ }, ?_⟩
  · simp [State.push, hs.records]
  · simp [State.push, hs.records]

theorem leads_arguments {owner : String} {m : Member} {depth : Nat} (arguments : List Argument) :
    Leads step (At records around (some ⟨owner, m.name.text, m.desc.text, depth⟩))
      (arguments.flatMap (Argument.lines (depth + 1)))
      (At (records ++ arguments.map (Argument.record owner m)) around
        (some ⟨owner, m.name.text, m.desc.text, depth⟩)) := by
  induction arguments generalizing records with
  | nil => simpa using leads_nil fun _ => id
  | cons a arguments ih =>
    rw [List.flatMap_cons, List.map_cons, List.append_cons]
    exact (leads_argument records a).append (ih _)

/-- What belongs to a class adds its records. Behind it the class and those around it are open as
before, however deep the classes inside have been. -/
theorem leads_items (items : Items) (haround : around ≠ []) :
    Leads step (At records around none) (items.lines around.length)
      (At (records ++ items.records around) around none) := by
  induction items generalizing records around with
  | nil =>
    rw [Items.records, List.append_nil]
    exact leads_nil fun _ => id
  | field f rest ih =>
    rw [Items.records, List.append_cons]
    exact (leads_field records f haround).append (ih _ haround)
  | method m arguments rest ih =>
    have hmethod := (leads_method records m haround).append (leads_arguments _ arguments)
    rw [Items.records, List.append_cons, ← List.append_assoc]
    exact (hmethod.weaken fun _ => At.outside).append (ih _ haround)
  | type c inside rest ihInside ihRest =>
    have hinside := ihInside (records ++ [c.record around]) (List.cons_ne_nil c around)
    rw [Items.records, List.append_cons, ← List.append_assoc]
    exact (((leads_heading records c).append hinside).weaken fun _ => At.outer).append
      (ihRest _ haround)

theorem leads_forest (forest : Forest) :
    Leads step (At records [] none) forest.lines (At (records ++ forest.records) [] none) := by
  induction forest generalizing records with
  | nil =>
    rw [Forest.records, List.flatMap_nil, List.append_nil]
    exact leads_nil fun _ => id
  | cons tree forest ih =>
    have hinside := leads_items (records ++ [tree.1.record []]) tree.2
      (List.cons_ne_nil tree.1 [])
    have htree := ((leads_heading records tree.1).append hinside).weaken fun _ => At.outer
    rw [← List.append_cons] at htree
    rw [Forest.lines, Forest.records, List.flatMap_cons, List.flatMap_cons,
      ← List.append_assoc records]
    exact htree.append (ih _)

end Elements

section Forests

theorem Items.length_names {items : Items} {around : List Heading} {r : Record}
    (h : r ∈ items.records around) : r.names.length = 2 := by
  induction items generalizing around with
  | nil => cases h
  | field f rest ih =>
    rcases List.mem_cons.1 h with rfl | h
    · rfl
    · exact ih h
  | method m arguments rest ih =>
    rw [records, List.mem_cons, List.mem_append, List.mem_map] at h
    rcases h with rfl | ⟨a, -, rfl⟩ | h
    · rfl
    · rfl
    · exact ih h
  | type c inside rest ihInside ihRest =>
    rw [records, List.mem_cons, List.mem_append] at h
    rcases h with rfl | h | h
    · rfl
    · exact ihInside h
    · exact ihRest h

/-- Every record has an official and a readable name, where it has names. -/
theorem Forest.length_names {forest : Forest} {r : Record} (h : r ∈ forest.records) :
    r.names.length = 2 := by
  obtain ⟨tree, -, hr⟩ := List.mem_flatMap.1 h
  rcases List.mem_cons.1 hr with rfl | hr
  · rfl
  · exact Items.length_names hr

/-- A line that is read as it is, since it does not end within itself. -/
def Unbroken (line : List Char) : Prop := '\n' ∉ line ∧ line.getLast? ≠ some '\r'

theorem unbroken_line (depth : Nat) (words : List Token) : Unbroken (line depth words) := by
  rw [line_eq]
  exact isLine_wordLine depth _

theorem CommentLine.unbroken_line (depth : Nat) (c : CommentLine) : Unbroken (c.line depth) := by
  obtain ⟨hfeed, hreturn⟩ := c.unbroken
  constructor
  · simp [line, hfeed]
  · rw [line, List.getLast?_append, List.getLast?_cons]
    cases hlast : c.text.toList.getLast? with
    | none => simp
    | some x => simpa [hlast] using hreturn

theorem unbroken_described {depth : Nat} {words : List Token} {comments : List CommentLine} :
    ∀ line ∈ described depth words comments, Unbroken line := by
  intro line hline
  rcases List.mem_cons.1 hline with rfl | hline
  · exact unbroken_line depth words
  · obtain ⟨c, -, rfl⟩ := List.mem_map.1 hline
    exact c.unbroken_line (depth + 1)

theorem Items.unbroken (items : Items) (depth : Nat) :
    ∀ line ∈ items.lines depth, Unbroken line := by
  induction items generalizing depth with
  | nil => exact fun _ h => by cases h
  | field f rest ih =>
    exact List.forall_mem_append.2 ⟨unbroken_described, ih depth⟩
  | method m arguments rest ih =>
    refine List.forall_mem_append.2 ⟨List.forall_mem_append.2 ⟨unbroken_described, ?_⟩, ih depth⟩
    intro line hline
    obtain ⟨a, -, ha⟩ := List.mem_flatMap.1 hline
    exact unbroken_described line ha
  | type c inside rest ihInside ihRest =>
    exact List.forall_mem_append.2
      ⟨List.forall_mem_append.2 ⟨unbroken_described, ihInside (depth + 1)⟩, ihRest depth⟩

theorem Forest.unbroken (forest : Forest) : ∀ line ∈ forest.lines, Unbroken line := by
  intro line hline
  obtain ⟨tree, -, htree⟩ := List.mem_flatMap.1 hline
  rcases List.mem_append.1 htree with hheading | hinside
  · exact unbroken_described line hheading
  · exact tree.2.unbroken 1 line hinside

/-- The text of a forest, of any depth and with members in any order, is read back as just its
records. -/
theorem parse_forest (forest : Forest) : parse forest.print = .ok forest.source := by
  obtain ⟨s, hs, hat⟩ := leads_forest [] forest .start
    ⟨rfl, List.prefix_refl [], fun _ hm => by cases hm⟩
  have hlines : (Text.numberedLines forest.print).map Prod.snd = forest.lines :=
    (Text.map_snd_numberedLines _).trans (Text.lines_flatMap_of_getLast? forest.unbroken)
  have hfold := foldLines_of_foldlM (hlines ▸ hs)
  have hrecords : s.records.toList = forest.records := by
    rw [hat.records]
    simp
  have hfit : forest.records.map (Record.fit 2) = forest.records := by
    rw [List.map_congr_left fun r hr => Record.fit_of_length (Forest.length_names hr), List.map_id']
  have hread : parse forest.print =
      .ok ((Source.start Namespace.official [Namespace.readable]).pushAll s.records.toList) := by
    rw [parse, hfold]
    rfl
  rw [hread, hrecords, Source.pushAll]
  exact congrArg (fun records => Except.ok (⟨_, _, _, records⟩ : Source)) hfit

end Forests

end JarRemap.Format.Enigma
