import JarRemap.Proofs.Text.Slice
import JarRemap.Format.Bytewise.Mcp
import JarRemap.Proofs.Format.Bytewise.TinyTree
import JarRemap.Proofs.Format.Bytewise.Wide
import JarRemap.Proofs.Format.Bytewise.Enigma
import JarRemap.Proofs.Format.Bytewise.Proguard
import JarRemap.Format.Bytewise.Parse

/-!
# Parsers and the bounds of a text

Exported tables, and then all formats together.
-/

/-!
## Exported name tables are read within bounds

What precedes the number of a method and the body of a table was found at the place where it is cut
off. That the numbers are cut out beforehand, for all methods, changes nothing.
-/

namespace JarRemap.Format.Bytewise.Mcp

open Checked (lift)
open JarRemap.Format.Mcp (Lookup ParamRow fileName cell? seargeCell?)
open JarRemap.Format.Mcp.Lookup (dropMarks)

variable {ε : Type}

theorem methodNumber?_eq (searge : List Char) :
    (methodNumber? searge : Checked ε _) = .ok (Lookup.methodNumber? searge) := by
  rw [methodNumber?, Lookup.methodNumber?, Text.stripStart?,
    ← List.isSome_isPrefixOf?_eq_isPrefixOf]
  cases hstart : "func_".toList.isPrefixOf? searge with
  | none => rfl
  | some rest =>
    obtain rfl := List.isPrefixOf?_eq_some_iff_append_eq.1 hstart
    have hrest : (Text.behind ("func_".toList ++ rest) "func_".utf8ByteSize : Checked ε _) =
        .ok rest :=
      Text.behind_append "func_".toList rest
    rw [hrest]
    rfl

/-- A method with the number in its searge name. -/
def numberOf (column : Nat) (c : ClassMapping) (m : MethodMapping) : Numbered :=
  ⟨(m.names.get? column).bind fun searge => Lookup.methodNumber? searge.toList, c, m⟩

/-- The methods of the tree with the numbers in their searge names. -/
def numbers (l : Lookup) : List Numbered :=
  l.tree.classes.values.flatMap fun c => c.methods.map (numberOf l.column c)

theorem numbered_eq (l : Lookup) : (numbered l : Checked ε _) = .ok (numbers l) := by
  have hmap : numbers l = (l.tree.classes.values.flatMap fun c =>
      c.methods.map (c, ·)).map fun p => numberOf l.column p.1 p.2 := by
    simp [numbers, List.map_flatMap, Function.comp_def]
  rw [numbered, hmap, ← Checked.pure_eq_ok, ← List.mapM_pure]
  congr 1
  funext p
  obtain ⟨c, m⟩ := p
  simp only [methodNumber?_eq]
  cases h : m.names.get? l.column <;> simp [numberOf, h]

/-- The methods of a number are those whose searge name has the number. -/
theorem filter_numbers (l : Lookup) (number : List Char) :
    (numbers l).filter (·.number = some number) =
      (l.methods fun searge => Lookup.methodNumber? searge.toList = some number).map
        fun p => numberOf l.column p.1 p.2 := by
  simp only [numbers, Lookup.methods, List.filter_flatMap, List.filter_map, List.map_flatMap,
    List.map_map]
  congr 1
  funext c
  congr 1
  apply List.filter_congr
  intro m _
  cases h : m.names.get? l.column <;> simp [numberOf, h]

/-- Naming parameters by the numbers that were cut out is the same as looking for each number. -/
theorem nameParam_eq (l : Lookup) (param name : List Char) :
    nameParam (numbers l) param name = l.nameParam param name := by
  simp only [nameParam, Lookup.nameParam, filter_numbers, List.map_map]
  rfl

theorem parse_eq (file : String) (side : Side) (tree : MappingTree) (text : List Char) :
    parse file side tree text = lift (Format.Mcp.parse file side tree text) := by
  unfold parse
  cases hlookup : Lookup.ofTree .mcp tree with
  | error e =>
    rw [Format.Mcp.parse, hlookup]
    rfl
  | ok lookup =>
    rw [Checked.lift_ok, Checked.ok_bind, numbered_eq, Checked.ok_bind]
    split
    · rename_i hfile
      simp only [Format.Mcp.parse, hlookup, hfile, nameParam_eq]
      cases Table.read .mcp ParamRow.read? text <;> rfl
    · rfl

/-- The body of a table begins behind the line of its mark. -/
theorem body?_eq (text : List Char) :
    (body? text : Checked ε _) = .ok (Format.Mcp.body? text) := by
  rw [body?, Format.Mcp.body?, Text.findMark?_eq]
  generalize hmark : "class (for reference only)".toList = mark
  cases hcut : Text.cutAt? mark text with
  | none => rfl
  | some parts =>
    obtain ⟨before, behind⟩ := parts
    have htext := Text.cutAt?_eq_some hcut
    have hfree : ¬ mark.any (fun c => decide (c = '\n')) = true := by
      rw [← hmark]
      decide
    have hbehind : (Text.behind text (Text.byteLength before) : Checked ε _) =
        .ok (mark ++ behind) := by
      rw [htext, List.append_assoc, Text.behind_append]
    have hfind : Text.find? (· = '\n') (mark ++ behind) =
        (Text.find? (· = '\n') behind).map (Text.byteLength mark + ·) := by
      rw [Text.find?_append, if_neg hfree]
    simp only [Option.map_some, hbehind, Checked.ok_bind, hfind]
    rw [Text.find?_eq]
    cases hline : Text.cut? '\n' behind with
    | none => rfl
    | some lines =>
      have hrest : (Text.behind text (Text.byteLength before +
          (Text.byteLength mark + Text.byteLength lines.1) + 1) : Checked ε _) = .ok lines.2 := by
        rw [htext, Text.cut?_eq_some (a := lines.1) (b := lines.2) hline, ← List.append_assoc,
          ← Nat.add_assoc, ← Text.byteLength_append, ← Text.byteLength_append]
        exact Text.behind_cons (c := '\n') rfl _ _
      simp only [Option.map_some, hrest, Checked.ok_bind]
      rfl

theorem parseOlder_eq (file : String) (side : Side) (tree : MappingTree) (text : List Char) :
    parseOlder file side tree text = lift (Format.Mcp.parseOlder file side tree text) := by
  unfold parseOlder Format.Mcp.parseOlder
  generalize fileName file = name
  split
  case h_3 =>
    simp only [Checked.fail_bind]
    rfl
  all_goals
    simp only [numbered_eq, body?_eq, Checked.pure_eq_ok, Checked.ok_bind]
    cases Lookup.ofTree .olderMcp tree with
    | error e => rfl
    | ok lookup => cases Format.Mcp.body? text <;> rfl

end JarRemap.Format.Bytewise.Mcp

/-!
## Which texts leave the bounds

The parser that cuts texts at offsets and asks for elements by index is the plain one: it gives the
source or the error of the plain parser for every text, whatever the format, the file name, the side
and the tree. The one exception is a comment in the nested class format behind an access modifier,
if the seventh byte of its line is inside a character; then it crashes.
-/

namespace JarRemap.Format.Bytewise

open Checked (lift)

variable {read : List Char → Checked LineFault Source} {plain : List Char → Except LineFault Source}

/-- Faults on lines become errors of the format on both sides. -/
theorem mapError_eq_lift (f : Format) {text : List Char} (h : read text = lift (plain text)) :
    (read text).mapError (Stop.map (FormatError.malformed f)) =
      lift ((plain text).mapError (FormatError.malformed f)) := by
  rw [h, Checked.mapError_lift]

/-- A text whose comments begin between characters is read as by the plain parser. -/
theorem parse_eq_lift {f : Format} {text : List Char}
    (h : ¬ (f = .enigma ∧ Enigma.SplitsCharacter text)) (known : Circumstances) :
    parse f known text = lift (Format.parse f known text) := by
  cases f with
  | tiny => exact mapError_eq_lift _ (Tiny.parse_eq text)
  | tiny2 => exact mapError_eq_lift _ (TinyTree.parse_eq text)
  | enigma =>
    obtain ⟨hsplits, -⟩ | ⟨-, hparse⟩ := Enigma.parse_cases text
    · exact absurd ⟨rfl, hsplits⟩ h
    · exact mapError_eq_lift _ hparse
  | srg => exact mapError_eq_lift _ (Srg.parse_eq text)
  | tsrg => exact mapError_eq_lift _ (Tsrg.parse_eq text)
  | tsrg2 => exact mapError_eq_lift _ (Tsrg.Wide.parse_eq text)
  | retroguard => exact mapError_eq_lift _ (Retroguard.parse_eq text)
  | mcp => exact Mcp.parse_eq known.file known.side known.tree text
  | oldMcp => rfl
  | olderMcp => exact Mcp.parseOlder_eq known.file known.side known.tree text
  | proguard => exact mapError_eq_lift _ (Proguard.parse_eq text)
  | parchment => rfl

theorem parse_of_splitsCharacter {text : List Char} (h : Enigma.SplitsCharacter text)
    (known : Circumstances) : parse .enigma known text = .error (.crash .cut) := by
  obtain ⟨-, hparse⟩ | ⟨hnot, -⟩ := Enigma.parse_cases text
  · exact congrArg (Except.mapError (Stop.map (FormatError.malformed .enigma))) hparse
  · exact absurd h hnot

/-- A parser leaves the bounds of a text or a list just if the format is the nested class format and
the text has a comment that would begin inside a character, and then by that cut; every other text
gives the source or the error that the plain parser gives. -/
theorem parse_crashes_iff (f : Format) (known : Circumstances) (text : List Char) :
    (∀ crash, parse f known text = .error (.crash crash) ↔
        crash = .cut ∧ f = .enigma ∧ Enigma.SplitsCharacter text) ∧
      (f = .enigma ∧ Enigma.SplitsCharacter text ∨
        parse f known text = lift (Format.parse f known text)) := by
  by_cases h : f = .enigma ∧ Enigma.SplitsCharacter text
  · obtain ⟨rfl, hsplits⟩ := h
    refine ⟨fun crash => ?_, .inl ⟨rfl, hsplits⟩⟩
    rw [parse_of_splitsCharacter hsplits known, Except.error.injEq, Stop.crash.injEq]
    exact ⟨fun hcrash => ⟨hcrash.symm, rfl, hsplits⟩, fun hcut => hcut.1.symm⟩
  · have hparse := parse_eq_lift h known
    refine ⟨fun crash => iff_of_false ?_ fun hcut => h hcut.2, .inr hparse⟩
    rw [hparse]
    cases Format.parse f known text <;> nofun

/-- A comment behind an access modifier with two characters of two bytes each, the second of which
has the eighth byte of the line. -/
theorem parse_crashes_behind_modifier :
    parse .enigma ⟨"a.mapping", .combined, {}⟩ "CLASS a\n\tACC:éé COMMENT x".toList =
      .error (.crash .cut) := by
  rfl

end JarRemap.Format.Bytewise
