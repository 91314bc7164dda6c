import JarRemap.Format.Tsrg
import JarRemap.Proofs.Format.WordLine

/-!
# The nested formats agree

A text of the first format is one of the second format below a header with its two namespaces, as
long as members are indented by one level and a member of three words has the descriptor of a
method. The two readers then tell the same lines apart: they read the same records, or stop at the
same line.
-/

namespace JarRemap.Format.Tsrg

/-- The first line of a text in the second format, with the namespaces of the first one. -/
def header : List Char := "tsrg2 official searge".toList

/-- The second of three words begins as the descriptor of a method. -/
def hasDescriptor : List (List Char) → Bool
  | [_, desc, _] => desc.head? = some '('
  | _ => true

/-- A line that means the same in both formats: if it is indented as that of a member, it is so by
one level, and if it has three words, the second one is the descriptor of a method. -/
def IsCommon (line : List Char) : Prop :=
  isRemark line = false → Text.depth line ≠ 0 →
    Text.depth line = 1 ∧ hasDescriptor (Text.words line) = true

instance (line : List Char) : Decidable (IsCommon line) := inferInstanceAs (Decidable (_ → _ → _))

/-- What the second format finds wrong with a line that is wrong in the first one. -/
def widened : Fault → Fault
  | .expected "a class and its name" => .wrongNumber "class"
  | .expected "a field or method" => .wrongNumber "member"
  | fault => fault

/-- Two readings of a line agree: they give the same records inside of the same class, or both refuse
the line. -/
def Agree (x : Except Fault (Option String × List Record))
    (y : Except Fault (Wide.State × List Record)) : Prop :=
  match x with
  | .ok (owner, records) => ∃ next, y = .ok (next, records) ∧ next.owner = owner
  | .error fault => y = .error (widened fault)

/-- The words of a class, or of a package. -/
theorem agree_typeLine (words : List (List Char)) :
    Agree
      (if isPackage words then .ok (none, [])
      else
        match words with
        | [old, renamed] => .ok (some (String.ofList old), [typeRecord [old, renamed]])
        | _ => .error (.expected "a class and its name"))
      (Wide.typeLine 2 words) := by
  rw [Wide.typeLine]
  by_cases hpackage : isPackage words = true
  · rw [if_pos hpackage, if_pos hpackage]
    exact ⟨{}, rfl, rfl⟩
  rw [if_neg hpackage, if_neg hpackage]
  rcases words with _ | ⟨old, _ | ⟨renamed, _ | ⟨more, words⟩⟩⟩
  · rfl
  · rfl
  · exact ⟨_, rfl, rfl⟩
  · rfl

/-- The words of a member. -/
theorem agree_memberLine (words : List (List Char)) (owner : String) :
    hasDescriptor words = true → Agree
      (match words with
      | [old, renamed] => .ok (some owner, [fieldRecord owner none [old, renamed]])
      | [old, desc, renamed] =>
          .ok (some owner, [methodRecord owner (some desc) [old, renamed]])
      | _ => .error (.expected "a field or method"))
      (Wide.memberLine 2 owner words) := by
  intro hdesc
  rcases words with _ | ⟨old, _ | ⟨renamed, _ | ⟨more, _ | ⟨other, words⟩⟩⟩⟩
  · rfl
  · rfl
  · exact ⟨_, rfl, rfl⟩
  · have hmethod : renamed.head? = some '(' := of_decide_eq_true hdesc
    refine ⟨⟨some owner, some ⟨owner, String.ofList old, some (String.ofList renamed)⟩⟩, ?_, rfl⟩
    rw [Wide.memberLine]
    simp [hmethod]
  · simp [Agree, Wide.memberLine, widened]

/-- A line is read alike inside of the same class. -/
theorem agree_step {line : List Char} (h : IsCommon line) (state : Wide.State) :
    Agree (step state.owner line) (Wide.step 2 state line) := by
  rw [step, Wide.step]
  by_cases hremark : isRemark line = true
  · rw [if_pos hremark, if_pos hremark]
    exact ⟨state, rfl, rfl⟩
  rw [if_neg hremark, if_neg hremark]
  by_cases hdepth : Text.depth line = 0
  · simp only [hdepth, if_true]
    exact agree_typeLine (Text.words line)
  · obtain ⟨hone, hdesc⟩ := h (Bool.eq_false_iff.2 hremark) hdepth
    simp only [hone, Nat.one_ne_zero, if_false]
    cases state.owner with
    | none => rfl
    | some owner => exact agree_memberLine (Text.words line) owner hdesc

/-- Lines that are read alike are read alike one line further down. -/
theorem readLines_below {lines : List (Nat × List Char)} (h : ∀ line ∈ lines, IsCommon line.2)
    (state : Wide.State) :
    readLines (Wide.step 2) state (lines.map fun line => (line.1 + 1, line.2)) =
      (readLines step state.owner lines).mapError fun e => ⟨e.line + 1, widened e.fault⟩ := by
  induction lines generalizing state with
  | nil => rfl
  | cons line lines ih =>
    obtain ⟨number, line⟩ := line
    obtain ⟨hline, hlines⟩ := List.forall_mem_cons.1 h
    have hstep := agree_step hline state
    rw [List.map_cons, readLines, readLines]
    cases hfirst : step state.owner line with
    | error fault =>
      rw [hfirst] at hstep
      rw [show Wide.step 2 state line = .error (widened fault) from hstep]
      rfl
    | ok read =>
      rw [hfirst] at hstep
      obtain ⟨next, hnext, howner⟩ := hstep
      simp only [hnext, ih hlines, howner, Except.mapError, bind, Except.bind]
      cases readLines step read.1 lines <;> rfl

/-- Below the header with its two namespaces, a text that means the same in both formats is read in
the second one as in the first: as the same source, or up to the same line, which has one number
more. -/
theorem parse_below_header {text : List Char} (h : ∀ line ∈ Text.lines text, IsCommon line) :
    Wide.parse (header ++ '\n' :: text) =
      (parse text).mapError fun e => ⟨e.line + 1, widened e.fault⟩ := by
  have hlines : ∀ line ∈ Text.numberedLines text, IsCommon line.2 := by
    intro line hline
    refine h line.2 ?_
    rw [← Text.map_snd_numberedLines]
    exact List.mem_map_of_mem hline
  have hheader : Wide.header (some header) = .ok (Namespace.official, [Namespace.searge]) := rfl
  have hread := readLines_below hlines {}
  rw [Wide.parse, numberedLines_cons (by decide)]
  simp only [List.head?_cons, List.tail_cons, Option.map_some, hheader, Except.mapError, bind,
    Except.bind]
  rw [show (Source.start Namespace.official [Namespace.searge]).width = 2 from rfl, hread, parse]
  cases readLines step none (Text.numberedLines text) <;> rfl

theorem parse_below_header_unnamedField :
    let text := "p/ q/\na A\n\tb c\n# d\n    m (La;)V n\n\te\n".toList
    (∀ line ∈ Text.lines text, IsCommon line) ∧
      parse text = .error ⟨6, .expected "a field or method"⟩ ∧
      Wide.parse (header ++ '\n' :: text) = .error ⟨7, .wrongNumber "member"⟩ :=
  ⟨by decide, by decide, parse_below_header (by decide)⟩

end JarRemap.Format.Tsrg
