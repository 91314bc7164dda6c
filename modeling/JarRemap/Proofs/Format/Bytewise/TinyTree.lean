import JarRemap.Proofs.Format.Bytewise.Reader
import JarRemap.Proofs.Text.Split
import JarRemap.Format.Bytewise.Nested
import Mathlib.Data.List.TakeWhile

/-!
# The nested tiny format is read within bounds

Whatever is open was pushed before, so its index is below the number of records, and no line takes a
record away. The depth of a line counts tabs, which have one byte each.
-/

namespace JarRemap.Format

open Checked (lift fail)

namespace TinyTree

/-- The records that are open have been read. -/
def State.Sound (s : State) : Prop := ∀ index, Open.record index ∈ s.opened → index < s.records.size

theorem State.Sound.take {s : State} (h : s.Sound) (depth : Nat) :
    State.Sound { s with opened := s.opened.take depth } :=
  fun index hindex => h index (List.mem_of_mem_take hindex)

theorem State.Sound.push {s : State} (h : s.Sound) (r : Record) : (s.push r).Sound := by
  intro index hindex
  rw [State.push, Array.size_push]
  rcases List.mem_append.1 hindex with hindex | hindex
  · exact Nat.lt_succ_of_lt (h index hindex)
  · obtain rfl : index = s.records.size := by simpa using hindex
    exact Nat.lt_succ_self _

theorem State.Sound.variable {s : State} (h : s.Sound) :
    State.Sound { s with opened := s.opened ++ [.variable] } := by
  intro index hindex
  rcases List.mem_append.1 hindex with hindex | hindex
  · exact h index hindex
  · simp at hindex

theorem State.Sound.comment {s : State} (h : s.Sound) (index : Nat) (text : List Char) :
    (s.comment index text).Sound := by
  intro other hother
  rw [State.comment, Array.size_modify]
  exact h other hother

/-- A line that is no comment opens a record or a local variable, and nothing else. -/
theorem entry_eq_ok {s s' : State} {kind : String} {parts : List (List Char)}
    {parent : Option Record} (h : entry s kind parts parent = .ok s') :
    (∃ r, s' = s.push r) ∨ s' = { s with opened := s.opened ++ [.variable] } := by
  unfold entry at h
  split at h
  · split at h
    · cases h
    · exact .inl ⟨_, (Except.ok.inj h).symm⟩
  · split at h
    · split at h
      · cases h
      · exact .inl ⟨_, (Except.ok.inj h).symm⟩
    · cases h
  · split at h
    · split at h
      · cases h
      · exact .inl ⟨_, (Except.ok.inj h).symm⟩
    · cases h
  · split at h
    · split at h
      · cases h
      · rename_i index _ _ _ _
        cases hindex : readIndex "parameter" index with
        | error fault =>
          rw [hindex] at h
          cases h
        | ok index =>
          rw [hindex] at h
          exact .inl ⟨_, (Except.ok.inj h).symm⟩
    · cases h
  · exact .inr (Except.ok.inj h).symm
  · cases h

end TinyTree

namespace Bytewise.TinyTree

open JarRemap.Format.TinyTree (State Open header isProperty)

variable {ε : Type}

theorem push_eq (s : State) (r : Record) : (push s r : Checked ε _) = .ok (s.push r) := by
  rw [push, Checked.sub_size_push]
  rfl

theorem comment_eq {s : State} {index : Nat} (h : index < s.records.size) (text : List Char) :
    (comment s index text : Checked ε _) = .ok (s.comment index text) := by
  rw [comment, Array.getElem?_eq_getElem h]
  rfl

theorem entry_eq (s : State) (kind : List Char) (parts : List (List Char))
    (parent : Option Record) :
    entry s (kind :: parts) parent =
      lift (Format.TinyTree.entry s (String.ofList kind) parts parent) := by
  unfold entry Format.TinyTree.entry
  simp only [Checked.at_zero, Checked.ok_bind, push_eq]
  generalize String.ofList kind = k
  by_cases hclass : k = "c"
  · subst hclass
    cases parent with
    | none => cases parts <;> simp +arith
    | some parent => simp
  by_cases hmember : k = "f" ∨ k = "m"
  · cases parent.map Record.element with
    | none => obtain rfl | rfl := hmember <;> simp
    | some element =>
      cases element with
      | type =>
        rcases parts with _ | ⟨desc, _ | ⟨name, names⟩⟩
        case cons.cons =>
          cases parent.bind Record.key? <;> obtain rfl | rfl := hmember <;> simp +arith
        all_goals obtain rfl | rfl := hmember <;> simp +arith
      | _ => obtain rfl | rfl := hmember <;> simp
  obtain ⟨hfield, hmethod⟩ := not_or.1 hmember
  by_cases hparam : k = "p"
  · subst hparam
    cases parent.map Record.element with
    | none => simp
    | some element =>
      cases element with
      | method owner desc =>
        rcases parts with _ | ⟨index, names⟩
        case cons =>
          cases parent.bind Record.key? with
          | none => simp +arith
          | some method => simp +arith [Checked.lift_fmap]
        all_goals simp +arith
      | _ => simp
  by_cases hvariable : k = "v"
  · subst hvariable
    cases parent.map Record.element with
    | none => simp
    | some element => cases element <;> simp
  · simp [hclass, hfield, hmethod, hparam, hvariable]

theorem behind_depth (line : List Char) :
    (Text.behind line (line.takeWhile (· = '\t')).length : Checked ε _) =
      .ok (line.drop (line.takeWhile (· = '\t')).length) := by
  generalize htabs : line.takeWhile (· = '\t') = tabs
  have hlength : Text.byteLength tabs = tabs.length := by
    apply Text.byteLength_eq_length
    intro c hc
    rw [← htabs] at hc
    have htab : decide (c = '\t') = true := List.mem_takeWhile_imp (p := fun c => decide (c = '\t')) hc
    rw [of_decide_eq_true htab]
    rfl
  have hline : tabs ++ line.drop tabs.length = line :=
    List.prefix_iff_eq_append.1 (htabs ▸ List.takeWhile_prefix _)
  rw [← hlength, ← hline, hlength, List.drop_left, ← hlength, Text.behind_append]

/-- From a state whose records have been read, a line is read as without indices. -/
theorem step_eq {s : State} (h : s.Sound) (line : List Char) :
    step s line = lift (Format.TinyTree.step s line) := by
  unfold step Format.TinyTree.step
  by_cases hblank : (Text.trim line).isEmpty = true
  · rw [if_pos hblank, if_pos hblank]
    rfl
  rw [if_neg hblank, if_neg hblank]
  simp only [behind_depth, Checked.ok_bind]
  generalize (line.takeWhile (· = '\t')).length = depth
  obtain ⟨kind, parts, hparts⟩ :=
    List.exists_cons_of_ne_nil (Text.splitOn_ne_nil '\t' (line.drop depth))
  rw [hparts]
  by_cases hdepth : s.opened.length < depth
  · rw [if_pos hdepth, if_pos hdepth]
    rfl
  rw [if_neg hdepth, if_neg hdepth]
  simp only [Checked.at_zero, Checked.ok_bind, List.headD_cons, List.tail_cons, entry_eq]
  cases hlast : (s.opened.take depth).getLast? with
  | none => rfl
  | some top =>
    obtain index | _ := top
    · have hindex : index < s.records.size := h.take depth index (List.mem_of_getLast? hlast)
      simp only [Array.getElem?_eq_getElem hindex, Checked.need_some, Checked.ok_bind]
      by_cases hkind : String.ofList kind = "c"
      · rw [if_pos hkind, if_pos hkind,
          comment_eq (s := { s with opened := s.opened.take depth }) hindex]
        cases parts <;> rfl
      · rw [if_neg hkind, if_neg hkind]
    · by_cases hkind : String.ofList kind = "c" <;> simp [hkind]

/-- A line keeps it so that the records that are open have been read. -/
theorem sound_step {s s' : State} (h : s.Sound) {line : List Char}
    (hstep : Format.TinyTree.step s line = .ok s') : s'.Sound := by
  unfold Format.TinyTree.step at hstep
  split at hstep
  · exact Except.ok.inj hstep ▸ h
  dsimp only at hstep
  split at hstep
  · cases hstep
  have htaken := h.take (line.takeWhile (· = '\t')).length
  split at hstep
  · split at hstep
    · exact Except.ok.inj hstep ▸ htaken
    · cases hstep
  · split at hstep
    · exact Except.ok.inj hstep ▸ htaken.comment _ _
    · obtain ⟨r, rfl⟩ | rfl := Format.TinyTree.entry_eq_ok hstep
      · exact htaken.push r
      · exact htaken.variable
  · obtain ⟨r, rfl⟩ | rfl := Format.TinyTree.entry_eq_ok hstep
    · exact htaken.push r
    · exact htaken.variable

theorem saysEscaped_eq {line : List Char} (h : isProperty line = true) :
    (saysEscaped line : Checked ε _) = .ok (Format.TinyTree.saysEscaped line) := by
  rcases line with _ | ⟨c, line⟩
  · cases h
  · obtain rfl : c = '\t' := by simpa [isProperty] using h
    rw [saysEscaped, ← List.singleton_append, ← Text.byteLength_singleton (c := '\t') rfl,
      Text.behind_append]
    rfl

theorem parse_eq (text : List Char) : parse text = lift (Format.TinyTree.parse text) := by
  have hproperties : ∀ lines : List (Nat × List Char),
      ((lines.takeWhile fun line => isProperty line.2).mapM fun line => saysEscaped line.2 :
        Checked LineFault _) = .ok ((lines.takeWhile fun line => isProperty line.2).map
          fun line => Format.TinyTree.saysEscaped line.2) := fun lines =>
    Checked.mapM_eq_ok fun line hline =>
      saysEscaped_eq (List.mem_takeWhile_imp (p := fun line : Nat × List Char => isProperty line.2) hline)
  have hstart : ∀ escaped width, State.Sound ⟨escaped, width, #[], []⟩ :=
    fun _ _ _ h => absurd h List.not_mem_nil
  unfold parse Format.TinyTree.parse
  simp only [onLine_lift, Checked.lift_bind]
  congr 1
  funext (key, others)
  rw [hproperties, Checked.ok_bind, List.any_map,
    foldLines_eq (fun _ line h => step_eq h line) (fun _ _ _ h => sound_step h) (hstart _ _)]
  rfl

end Bytewise.TinyTree

end JarRemap.Format
