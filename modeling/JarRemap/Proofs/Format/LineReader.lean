import JarRemap.Format.LineReader
import JarRemap.Proofs.Text.Lines

/-!
# What lines lead to

A text that was written line by line is read by one step for each line. The steps are followed by
what is known of the state between them: `Leads` says that some lines are read in every state with
one property, and lead to a state with another. Where a step gives the records of its line, `Reads`
says in the same way which records are read. Lines that change nothing may stand between others.
-/

namespace JarRemap.Format

variable {σ : Type} {step : σ → List Char → Except Fault σ}

/-- If all lines are read in order, their numbers do not matter. -/
theorem foldLines_of_foldlM {state final : σ} {lines : List (Nat × List Char)}
    (h : (lines.map Prod.snd).foldlM step state = .ok final) :
    foldLines step state lines = .ok final := by
  induction lines generalizing state with
  | nil =>
    obtain rfl := Except.ok.inj h
    rfl
  | cons line lines ih =>
    rw [List.map_cons, List.foldlM_cons] at h
    rw [foldLines]
    cases hstep : step state line.2 with
    | error fault =>
      rw [hstep] at h
      cases h
    | ok next =>
      rw [hstep] at h
      exact ih h

/-- In every state with `P` the lines are read, and lead to a state with `Q`. -/
def Leads (step : σ → List Char → Except Fault σ) (P : σ → Prop) (lines : List (List Char))
    (Q : σ → Prop) : Prop :=
  ∀ s, P s → ∃ s', lines.foldlM step s = .ok s' ∧ Q s'

variable {P Q R : σ → Prop} {line : List Char} {lines more : List (List Char)}

theorem leads_nil (h : ∀ s, P s → Q s) : Leads step P [] Q := fun s hs => ⟨s, rfl, h s hs⟩

theorem Leads.cons (h : ∀ s, P s → ∃ s', step s line = .ok s' ∧ Q s')
    (hlines : Leads step Q lines R) : Leads step P (line :: lines) R := by
  intro s hs
  obtain ⟨next, hnext, hQ⟩ := h s hs
  obtain ⟨final, hfinal, hR⟩ := hlines next hQ
  refine ⟨final, ?_, hR⟩
  rw [List.foldlM_cons, hnext]
  exact hfinal

theorem Leads.append (h : Leads step P lines Q) (hmore : Leads step Q more R) :
    Leads step P (lines ++ more) R := by
  intro s hs
  obtain ⟨next, hnext, hQ⟩ := h s hs
  obtain ⟨final, hfinal, hR⟩ := hmore next hQ
  refine ⟨final, ?_, hR⟩
  rw [List.foldlM_append, hnext]
  exact hfinal

theorem Leads.weaken (h : Leads step P lines Q) (hQ : ∀ s, Q s → R s) : Leads step P lines R := by
  intro s hs
  obtain ⟨final, hfinal, hs'⟩ := h s hs
  exact ⟨final, hfinal, hQ final hs'⟩

section Records

variable {σ : Type} {step : Step σ}

/-- From one state lines are read in order, as records, and lead to another state. -/
inductive Reading (step : Step σ) : σ → List (List Char) → List Record → σ → Prop
  | nil (s : σ) : Reading step s [] [] s
  | cons {s next last : σ} {line : List Char} {lines : List (List Char)}
      {records more : List Record} (first : step s line = .ok (next, records))
      (rest : Reading step next lines more last) :
      Reading step s (line :: lines) (records ++ more) last

/-- If all lines are read, their numbers do not matter. -/
theorem Reading.readLines_eq {s last : σ} {lines : List (Nat × List Char)} {records : List Record}
    (h : Reading step s (lines.map Prod.snd) records last) :
    readLines step s lines = .ok records := by
  induction lines generalizing s records with
  | nil =>
    cases h
    rfl
  | cons line lines ih =>
    cases h with
    | cons first rest =>
      rw [readLines, first]
      simp only [Except.mapError, bind, Except.bind, ih rest]
      rfl

theorem exists_reading {s : σ} {lines : List (Nat × List Char)} {records : List Record}
    (h : readLines step s lines = .ok records) :
    ∃ last, Reading step s (lines.map Prod.snd) records last := by
  induction lines generalizing s records with
  | nil =>
    obtain rfl := Except.ok.inj h
    exact ⟨s, .nil s⟩
  | cons line lines ih =>
    rw [readLines] at h
    cases hstep : step s line.2 with
    | error fault =>
      rw [hstep] at h
      cases h
    | ok result =>
      rw [hstep] at h
      cases hmore : readLines step result.1 lines with
      | error fault =>
        simp only [Except.mapError, bind, Except.bind, hmore] at h
        cases h
      | ok more =>
        simp only [Except.mapError, bind, Except.bind, hmore] at h
        obtain rfl := Except.ok.inj h
        obtain ⟨last, hlast⟩ := ih hmore
        exact ⟨last, .cons hstep hlast⟩

/-- A line that was read was read in some state. -/
theorem Reading.exists_step {s last : σ} {line : List Char} {lines : List (List Char)}
    {records : List Record} (h : Reading step s lines records last) (hline : line ∈ lines) :
    ∃ state result, step state line = .ok result := by
  induction h with
  | nil => cases hline
  | cons first _ ih =>
    rcases List.mem_cons.1 hline with rfl | hline
    · exact ⟨_, _, first⟩
    · exact ih hline

theorem Reading.append {s next last : σ} {lines more : List (List Char)}
    {records others : List Record} (h : Reading step s lines records next)
    (hmore : Reading step next more others last) :
    Reading step s (lines ++ more) (records ++ others) last := by
  induction h with
  | nil => exact hmore
  | cons first _ ih =>
    rw [List.append_assoc]
    exact .cons first (ih hmore)

/-- In every state with `P` the lines are read as the records, and lead to a state with `Q`. -/
def Reads (step : Step σ) (P : σ → Prop) (lines : List (List Char)) (records : List Record)
    (Q : σ → Prop) : Prop :=
  ∀ s, P s → ∃ s', Reading step s lines records s' ∧ Q s'

variable {P Q R : σ → Prop} {line : List Char} {lines more : List (List Char)}
  {records others : List Record}

theorem reads_nil : Reads step P [] [] P := fun s hs => ⟨s, .nil s, hs⟩

theorem reads_line (h : ∀ s, P s → ∃ s', step s line = .ok (s', records) ∧ Q s') :
    Reads step P [line] records Q := by
  intro s hs
  obtain ⟨next, hnext, hQ⟩ := h s hs
  exact ⟨next, List.append_nil records ▸ .cons hnext (.nil next), hQ⟩

theorem Reads.append (h : Reads step P lines records Q) (hmore : Reads step Q more others R) :
    Reads step P (lines ++ more) (records ++ others) R := by
  intro s hs
  obtain ⟨next, hnext, hQ⟩ := h s hs
  obtain ⟨last, hlast, hR⟩ := hmore next hQ
  exact ⟨last, hnext.append hlast, hR⟩

theorem Reads.weaken (h : Reads step P lines records Q) (hQ : ∀ s, Q s → R s) :
    Reads step P lines records R := by
  intro s hs
  obtain ⟨last, hlast, hs'⟩ := h s hs
  exact ⟨last, hlast, hQ last hs'⟩

/-- Items that lead from states with a property to such states are read one by one. -/
theorem reads_flatMap {α : Type} {items : List α} {lines : α → List (List Char)}
    {records : α → List Record} (h : ∀ item ∈ items, Reads step P (lines item) (records item) P) :
    Reads step P (items.flatMap lines) (items.flatMap records) P := by
  induction items with
  | nil => exact reads_nil
  | cons item items ih =>
    obtain ⟨hitem, hitems⟩ := List.forall_mem_cons.1 h
    exact hitem.append (ih hitems)

theorem reads_map {α : Type} {items : List α} {line : α → List Char} {record : α → Record}
    (h : ∀ item ∈ items, ∀ s, P s → ∃ s', step s (line item) = .ok (s', [record item]) ∧ P s') :
    Reads step P (items.map line) (items.map record) P := by
  induction items with
  | nil => exact reads_nil
  | cons item items ih =>
    obtain ⟨hitem, hitems⟩ := List.forall_mem_cons.1 h
    exact (reads_line hitem).append (ih hitems)

end Records

section Gaps

variable {α : Type}

/-- Put some items between others: those of the first gap before the first item, and so on, and those
of one gap more behind the last item. -/
def spread : List (List α) → List α → List α
  | [], items => items
  | gap :: _, [] => gap
  | gap :: gaps, item :: items => gap ++ item :: spread gaps items

theorem mem_spread {gaps : List (List α)} {items : List α} {x : α} (h : x ∈ spread gaps items) :
    (∃ gap ∈ gaps, x ∈ gap) ∨ x ∈ items := by
  induction items generalizing gaps with
  | nil =>
    cases gaps with
    | nil => exact .inr h
    | cons gap gaps => exact .inl ⟨gap, List.mem_cons_self, h⟩
  | cons item items ih =>
    cases gaps with
    | nil => exact .inr h
    | cons gap gaps =>
      rw [spread, List.mem_append, List.mem_cons] at h
      rcases h with h | rfl | h
      · exact .inl ⟨gap, List.mem_cons_self, h⟩
      · exact .inr List.mem_cons_self
      · rcases ih h with ⟨other, hother, hx⟩ | hx
        · exact .inl ⟨other, List.mem_cons_of_mem gap hother, hx⟩
        · exact .inr (List.mem_cons_of_mem item hx)

theorem mem_spread_of_mem {gaps : List (List α)} {items : List α} {x : α} (h : x ∈ items) :
    x ∈ spread gaps items := by
  induction items generalizing gaps with
  | nil => cases h
  | cons item items ih =>
    cases gaps with
    | nil => exact h
    | cons gap gaps =>
      rcases List.mem_cons.1 h with rfl | h
      · exact List.mem_append_right gap List.mem_cons_self
      · exact List.mem_append_right gap (List.mem_cons_of_mem item (ih h))

variable {σ : Type} {step : Step σ}

theorem reading_ignored {lines : List (List Char)}
    (h : ∀ line ∈ lines, ∀ s, step s line = .ok (s, [])) (s : σ) : Reading step s lines [] s := by
  induction lines with
  | nil => exact .nil s
  | cons line lines ih =>
    obtain ⟨hline, hlines⟩ := List.forall_mem_cons.1 h
    exact .cons (hline s) (ih hlines)

/-- Lines that change nothing may stand anywhere. -/
theorem Reading.spread {gaps : List (List (List Char))}
    (h : ∀ gap ∈ gaps, ∀ line ∈ gap, ∀ s, step s line = .ok (s, [])) {s last : σ}
    {lines : List (List Char)} {records : List Record}
    (hlines : Reading step s lines records last) :
    Reading step s (spread gaps lines) records last := by
  induction hlines generalizing gaps with
  | nil s =>
    cases gaps with
    | nil => exact .nil s
    | cons gap gaps => exact reading_ignored (h gap List.mem_cons_self) s
  | cons first rest ih =>
    cases gaps with
    | nil => exact .cons first rest
    | cons gap gaps =>
      obtain ⟨hgap, hgaps⟩ := List.forall_mem_cons.1 h
      exact (reading_ignored hgap _).append (.cons first (ih hgaps))

variable {P : σ → Prop}

theorem reads_ignored {blocks : List (List (List Char))}
    (h : ∀ block ∈ blocks, Reads step P block [] P) : Reads step P blocks.flatten [] P := by
  induction blocks with
  | nil => exact reads_nil
  | cons block blocks ih =>
    obtain ⟨hblock, hblocks⟩ := List.forall_mem_cons.1 h
    exact hblock.append (ih hblocks)

/-- Blocks of lines without records may stand between others that lead back to the same states. -/
theorem reads_spread {gaps : List (List (List (List Char)))} {items : List α}
    {lines : α → List (List Char)} {records : α → List Record}
    (hgaps : ∀ gap ∈ gaps, ∀ block ∈ gap, Reads step P block [] P)
    (h : ∀ item ∈ items, Reads step P (lines item) (records item) P) :
    Reads step P (spread gaps (items.map lines)).flatten (items.flatMap records) P := by
  induction items generalizing gaps with
  | nil =>
    cases gaps with
    | nil => exact reads_nil
    | cons gap gaps => exact reads_ignored (hgaps gap List.mem_cons_self)
  | cons item items ih =>
    obtain ⟨hitem, hitems⟩ := List.forall_mem_cons.1 h
    cases gaps with
    | nil => exact hitem.append (List.flatMap_def ▸ reads_flatMap hitems)
    | cons gap gaps =>
      obtain ⟨hgap, hrest⟩ := List.forall_mem_cons.1 hgaps
      rw [List.map_cons, spread, List.flatten_append, List.flatten_cons]
      exact (reads_ignored hgap).append (hitem.append (ih hrest hitems))

end Gaps

end JarRemap.Format
