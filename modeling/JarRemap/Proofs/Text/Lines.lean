import JarRemap.Text.Lines
import Mathlib.Data.List.Basic

/-!
# Lines are read as they were written

A text that is written line by line is read line by line, if no line holds a line feed or ends in a
carriage return. Lines that are read hold no line feed, and no carriage return if each of those
stands before a line feed.
-/

namespace JarRemap.Text

/-- Whether carriage returns stand before line feeds only. -/
def returnsEndLines : List Char → Bool
  | [] => true
  | c :: rest => (c != '\r' || rest.head? == some '\n') && returnsEndLines rest

theorem dropReturn_eq (line : List Char) : dropReturn line = line ∨ dropReturn line = line.tail := by
  unfold dropReturn
  split
  · exact .inr rfl
  · exact .inl rfl

theorem dropReturn_of_head? {line : List Char} (h : line.head? ≠ some '\r') :
    dropReturn line = line := by
  rcases line with _ | ⟨c, rest⟩
  · rfl
  · unfold dropReturn
    split
    · next heq => exact absurd (congrArg some (List.cons.inj heq).1) h
    · rfl

theorem dropReturn_of_not_mem {line : List Char} (h : '\r' ∉ line) : dropReturn line = line :=
  dropReturn_of_head? fun hhead => h (List.mem_of_mem_head? hhead)

/-- Only the first character of a reversed line is looked at. -/
theorem not_mem_dropReturn {line : List Char} (h : '\r' ∉ line.tail) : '\r' ∉ dropReturn line := by
  rcases line with _ | ⟨c, rest⟩
  · exact List.not_mem_nil
  · by_cases hc : c = '\r'
    · subst hc
      exact h
    · have hall : '\r' ∉ c :: rest := by
        rw [List.mem_cons, not_or]
        exact ⟨Ne.symm hc, h⟩
      rwa [dropReturn_of_not_mem hall]

/-- A text is read as the lines it was written as, if none of them ends in a carriage return. -/
theorem lines_flatMap_of_getLast? {texts : List (List Char)}
    (h : ∀ t ∈ texts, '\n' ∉ t ∧ t.getLast? ≠ some '\r') :
    lines (texts.flatMap fun t => t ++ ['\n']) = texts := by
  induction texts with
  | nil => rfl
  | cons t texts ih =>
    obtain ⟨hfeed, hreturn⟩ := h t List.mem_cons_self
    have hrest := ih fun s hs => h s (List.mem_cons_of_mem t hs)
    rw [List.flatMap_cons, List.append_assoc, List.singleton_append, lines, linesFrom_append hfeed,
      List.append_nil, dropReturn_of_head? (by simpa using hreturn), List.reverse_reverse]
    exact congrArg (t :: ·) hrest

theorem lines_flatMap {texts : List (List Char)} (h : ∀ t ∈ texts, '\n' ∉ t ∧ '\r' ∉ t) :
    lines (texts.flatMap fun t => t ++ ['\n']) = texts :=
  lines_flatMap_of_getLast? fun t ht =>
    ⟨(h t ht).1, fun hlast => (h t ht).2 (List.mem_of_getLast? hlast)⟩

/-- Lines hold no line feed. Carriage returns are taken off where they end a line; `line` may end in
one only if the line feed comes next. -/
theorem mem_linesFrom {line text t : List Char} (hfeed : '\n' ∉ line)
    (hreturn : '\r' ∉ line ∨ '\r' ∉ line.tail ∧ text.head? = some '\n')
    (htext : returnsEndLines text = true) (ht : t ∈ linesFrom line text) :
    '\n' ∉ t ∧ '\r' ∉ t := by
  induction text generalizing line with
  | nil =>
    have hline : '\r' ∉ line := hreturn.resolve_right fun h => by cases h.2
    simp only [linesFrom] at ht
    split at ht
    · cases ht
    · rw [List.mem_singleton] at ht
      subst ht
      exact ⟨by simpa using hfeed, by simpa using hline⟩
  | cons c text ih =>
    simp only [returnsEndLines, Bool.and_eq_true, Bool.or_eq_true, bne_iff_ne, beq_iff_eq] at htext
    obtain ⟨hc, htext⟩ := htext
    simp only [linesFrom] at ht
    split at ht
    · rcases List.mem_cons.1 ht with rfl | ht
      · have htail : '\r' ∉ line.tail := by
          rcases hreturn with h | ⟨h, -⟩
          · exact fun hmem => h (List.mem_of_mem_tail hmem)
          · exact h
        simp only [List.mem_reverse]
        refine ⟨?_, not_mem_dropReturn htail⟩
        rcases dropReturn_eq line with h | h <;> rw [h]
        · exact hfeed
        · exact fun hmem => hfeed (List.mem_of_mem_tail hmem)
      · exact ih List.not_mem_nil (.inl List.not_mem_nil) htext ht
    · next hne =>
      have hline : '\r' ∉ line := by
        rcases hreturn with h | ⟨-, h⟩
        · exact h
        · exact absurd (Option.some.inj h) hne
      refine ih ?_ ?_ htext ht
      · rw [List.mem_cons, not_or]
        exact ⟨Ne.symm hne, hfeed⟩
      · by_cases hreturn : c = '\r'
        · exact .inr ⟨hline, hc.resolve_left fun h => h hreturn⟩
        · refine .inl ?_
          rw [List.mem_cons, not_or]
          exact ⟨Ne.symm hreturn, hline⟩

/-- The lines of a text hold no line feed and no carriage return. -/
theorem mem_lines {text t : List Char} (htext : returnsEndLines text = true) (ht : t ∈ lines text) :
    '\n' ∉ t ∧ '\r' ∉ t :=
  mem_linesFrom List.not_mem_nil (.inl List.not_mem_nil) htext ht

theorem depth_replicate_append (n : Nat) {s : List Char} (h : depth s = 0) :
    depth (List.replicate n '\t' ++ s) = n := by
  induction n with
  | zero => exact h
  | succ n ih => exact congrArg (· + 1) ih

theorem map_snd_numberedLines (text : List Char) :
    (numberedLines text).map Prod.snd = lines text := by
  rw [numberedLines, List.map_map]
  exact List.zipIdx_map_fst 0 (lines text)

end JarRemap.Text
