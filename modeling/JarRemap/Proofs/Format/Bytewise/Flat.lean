import JarRemap.Proofs.Format.Bytewise.Reader
import JarRemap.Proofs.Text.Split
import JarRemap.Proofs.Text.Words
import JarRemap.Format.Bytewise.Flat

/-!
# Flat formats are read within bounds

A line that is no remark has a first word, and the others are asked for by their indices only after
they have been counted. So no step crashes, and each one reads what its plain form reads.
-/

namespace JarRemap.Format.Bytewise

open Checked (lift)

/-- A line that is no remark has a first word. -/
theorem exists_words {line : List Char} (h : ¬ isRemark line = true) :
    ∃ kind words, Text.words line = kind :: words := by
  apply List.exists_cons_of_ne_nil
  rw [ne_eq, Text.words_eq_nil_iff]
  intro hblank
  exact h (by rw [isRemark, hblank])

/-- A line that is a remark or a record of its own is read as its words are. -/
theorem lineEntry_eq {entry : List (List Char) → Checked Fault (List Record)}
    {plain : String → List (List Char) → Except Fault (List Record)}
    (hentry : ∀ kind words, entry (kind :: words) = lift (plain (String.ofList kind) words))
    (line : List Char) :
    (if isRemark line then pure ((), []) else do return ((), ← entry (Text.words line)) :
        Checked Fault (Unit × List Record)) =
      lift (if isRemark line then .ok ((), [])
        else (plain (String.ofList ((Text.words line).headD [])) (Text.words line).tail).map
          fun records => ((), records)) := by
  by_cases hremark : isRemark line = true
  · rw [if_pos hremark, if_pos hremark]
    rfl
  · obtain ⟨kind, words, hwords⟩ := exists_words hremark
    rw [if_neg hremark, if_neg hremark, hwords, hentry]
    simp only [List.headD_cons, List.tail_cons, Checked.lift_map]
    cases plain (String.ofList kind) words <;> rfl

namespace Tiny

theorem step_eq (s : Unit) (line : List Char) : step s line = lift (Format.Tiny.step s line) := by
  obtain ⟨kind, parts, hparts⟩ := List.exists_cons_of_ne_nil (Text.splitOn_ne_nil '\t' line)
  unfold Format.Tiny.step
  split
  · rfl
  · rfl
  · rename_i hempty hremark
    have hskip : ¬ (line.isEmpty || decide (line.head? = some '#')) = true := by
      rintro h
      rcases line with _ | ⟨c, line⟩
      · exact hempty rfl
      · obtain rfl : c = '#' := by simpa using h
        exact hremark line rfl
    rw [step, if_neg hskip, hparts, entry]
    simp only [List.headD_cons, List.tail_cons, Checked.at_zero, Checked.ok_bind]
    generalize String.ofList kind = k
    by_cases hclass : k = "CLASS"
    · subst hclass
      cases parts <;> simp +arith
    by_cases hfield : k = "FIELD"
    · subst hfield
      rcases parts with _ | ⟨owner, _ | ⟨desc, _ | ⟨name, names⟩⟩⟩ <;> simp +arith
    by_cases hmethod : k = "METHOD"
    · subst hmethod
      rcases parts with _ | ⟨owner, _ | ⟨desc, _ | ⟨name, names⟩⟩⟩ <;> simp +arith
    · simp [hclass, hfield, hmethod]

theorem parse_eq (text : List Char) : parse text = lift (Format.Tiny.parse text) := by
  simp only [parse, Format.Tiny.parse, Checked.lift_bind, onLine_lift, readLines_eq step_eq]
  rfl

end Tiny

namespace Srg

theorem member_eq (word : List Char) : member word = lift (Format.Srg.member word) := by
  rw [member, Format.Srg.member, splitMember?_eq, Checked.ok_bind]
  cases splitQualified? word <;> rfl

theorem entry_eq (kind : List Char) (words : List (List Char)) :
    entry (kind :: words) = lift (Format.Srg.entry (String.ofList kind) words) := by
  rw [entry]
  simp only [Checked.at_zero, Checked.ok_bind, member_eq]
  generalize String.ofList kind = k
  by_cases hpackage : k = "PK:"
  · subst hpackage
    rfl
  by_cases hclass : k = "CL:"
  · subst hclass
    rcases words with _ | ⟨old, _ | ⟨renamed, _ | ⟨more, words⟩⟩⟩ <;> simp [Format.Srg.entry]
  by_cases hfield : k = "FD:"
  · subst hfield
    rcases words with _ | ⟨old, _ | ⟨a, _ | ⟨b, _ | ⟨c, _ | ⟨d, words⟩⟩⟩⟩⟩ <;>
      simp [Format.Srg.entry, Checked.lift_bind, Checked.lift_fmap]
  by_cases hmethod : k = "MD:"
  · subst hmethod
    rcases words with _ | ⟨old, _ | ⟨a, _ | ⟨b, _ | ⟨c, _ | ⟨d, words⟩⟩⟩⟩⟩ <;>
      simp [Format.Srg.entry, Checked.lift_bind, Checked.lift_fmap]
  · simp [Format.Srg.entry, hclass, hfield, hmethod]

theorem step_eq (s : Unit) (line : List Char) : step s line = lift (Format.Srg.step s line) :=
  lineEntry_eq entry_eq line

theorem parse_eq (text : List Char) : parse text = lift (Format.Srg.parse text) := by
  simp only [parse, Format.Srg.parse, Checked.lift_bind, readLines_eq step_eq]
  rfl

end Srg

namespace Retroguard

theorem simpleName_eq {ε : Type} (word : List Char) :
    (simpleName word : Checked ε _) = .ok (Format.Retroguard.simpleName word) := by
  rw [simpleName, splitMember?_eq]
  rfl

theorem entry_eq (kind : List Char) (words : List (List Char)) :
    entry (kind :: words) = lift (Format.Retroguard.entry (String.ofList kind) words) := by
  rw [entry]
  simp only [Checked.at_zero, Checked.ok_bind, splitMember?_eq, simpleName_eq]
  generalize String.ofList kind = k
  by_cases hclass : k = ".class_map"
  · subst hclass
    rcases words with _ | ⟨old, _ | ⟨renamed, _ | ⟨more, words⟩⟩⟩ <;>
      simp +arith [Format.Retroguard.entry]
  by_cases hfield : k = ".field_map"
  · subst hfield
    rcases words with _ | ⟨old, _ | ⟨renamed, _ | ⟨more, words⟩⟩⟩
    case cons.cons.nil => cases h : splitQualified? old <;> simp [Format.Retroguard.entry, h]
    all_goals simp +arith [Format.Retroguard.entry]
  by_cases hmethod : k = ".method_map"
  · subst hmethod
    rcases words with _ | ⟨old, _ | ⟨desc, _ | ⟨renamed, _ | ⟨more, words⟩⟩⟩⟩
    case cons.cons.cons.nil => cases h : splitQualified? old <;> simp [Format.Retroguard.entry, h]
    all_goals simp +arith [Format.Retroguard.entry]
  · by_cases hother : k ∈ Format.Retroguard.otherDirectives <;>
      simp [Format.Retroguard.entry, hclass, hfield, hmethod, hother]

theorem step_eq (s : Unit) (line : List Char) :
    step s line = lift (Format.Retroguard.step s line) :=
  lineEntry_eq entry_eq line

theorem parse_eq (text : List Char) : parse text = lift (Format.Retroguard.parse text) := by
  simp only [parse, Format.Retroguard.parse, Checked.lift_bind, readLines_eq step_eq]
  rfl

end Retroguard

namespace Tsrg

theorem isPackage_eq {ε : Type} (word : List Char) (words : List (List Char)) :
    (isPackage (word :: words) : Checked ε _) = .ok (Format.Tsrg.isPackage (word :: words)) := rfl

theorem step_eq (owner : Option String) (line : List Char) :
    step owner line = lift (Format.Tsrg.step owner line) := by
  unfold step Format.Tsrg.step
  by_cases hremark : isRemark line = true
  · rw [if_pos hremark, if_pos hremark]
    rfl
  obtain ⟨word, words, hwords⟩ := exists_words hremark
  rw [if_neg hremark, if_neg hremark, hwords]
  unfold entry
  rw [isPackage_eq]
  by_cases hdepth : Text.depth line = 0
  · cases hpackage : Format.Tsrg.isPackage (word :: words) with
    | true => simp [hdepth, hpackage]
    | false =>
      rcases words with _ | ⟨renamed, _ | ⟨more, words⟩⟩ <;> simp +arith [hdepth, hpackage]
  · cases owner with
    | none => simp [hdepth]
    | some owner =>
      rcases words with _ | ⟨a, _ | ⟨b, _ | ⟨c, words⟩⟩⟩ <;> simp [hdepth]

theorem parse_eq (text : List Char) : parse text = lift (Format.Tsrg.parse text) := by
  simp only [parse, Format.Tsrg.parse, Checked.lift_bind, readLines_eq step_eq]
  rfl

end Tsrg

end JarRemap.Format.Bytewise
