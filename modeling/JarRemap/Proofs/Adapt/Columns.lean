import JarRemap.Sheet
import JarRemap.Proofs.Adapt.Rekey
import JarRemap.Proofs.Format.Lineage
import JarRemap.Proofs.Merge.Filtered
import JarRemap.Proofs.Text.Slice

/-!
# Stages keep one name for each namespace

A stage exchanges two columns, leaves some out, or lets a caller make new records, whose names are
fitted to the namespaces. So every record keeps one name for each namespace, and whatever column a
stage looks up is there.
-/

namespace JarRemap

/-!
## Lists by indices
-/

namespace Checked

variable {ε α β : Type} {l : List α} {i : Nat}

theorem at_eq (h : i < l.length) : (at_ l i : Checked ε α) = .ok l[i] := by
  rw [at_, List.getElem?_eq_getElem h]
  rfl

theorem put_eq (h : i < l.length) (a : α) : (put l i a : Checked ε (List α)) = .ok (l.set i a) := by
  rw [put, at_eq h]
  rfl

/-- Exchanging the first element is in bounds if the other one is. -/
theorem swap_zero_eq (h : i < l.length) :
    (swap l 0 i : Checked ε (List α)) = .ok (swapFirst i l) := by
  cases l with
  | nil => cases h
  | cons a l =>
    have hi : (a :: l)[i]? = some (a :: l)[i] := List.getElem?_eq_getElem h
    rw [swap, at_zero, at_eq h, swapFirst.eq_def, hi]
    dsimp only
    rcases Nat.eq_zero_or_pos i with rfl | hpos
    · rfl
    · rw [List.set_comm _ _ (Nat.ne_of_gt hpos)]
      rfl

theorem modifyAt_eq {f : α → Checked ε α} {g : α → α} (h : i < l.length)
    (hf : ∀ a, f a = .ok (g a)) : modifyAt l i f = .ok (l.modify i g) := by
  rw [modifyAt, at_eq h, ok_bind, hf, ok_bind, put_eq h, List.modify_eq_set_getElem?,
    List.getElem?_eq_getElem h]
  rfl

theorem changeFirst_eq {p : α → Bool} {f : α → Checked ε α} {g : α → α} (new : Option α)
    (hf : ∀ a, f a = .ok (g a)) (l : List α) :
    changeFirst p new f l = .ok (match l.findIdx? p with
      | some i => l.modify i g
      | none => l ++ (new.map g).toList) := by
  unfold changeFirst
  cases hfound : l.findIdx? p with
  | some i => exact modifyAt_eq (List.findIdx?_eq_some_iff_getElem.1 hfound).1 hf
  | none =>
    cases new with
    | none => simp
    | some a =>
      have hlength : (l ++ [a]).length = l.length + 1 := List.length_append
      dsimp only
      rw [hlength, sub_of_le (Nat.le_add_left 1 _), Nat.add_sub_cancel, ok_bind,
        modifyAt_eq (hlength ▸ Nat.lt_succ_self _) hf, List.modify_eq_set_getElem?,
        List.getElem?_concat_length]
      simp

theorem filterM_eq_ok {p : α → Checked ε Bool} {q : α → Bool} (h : ∀ a ∈ l, p a = .ok (q a)) :
    l.filterM p = .ok (l.filter q) := by
  have haux : ∀ kept, List.filterAuxM p l kept = .ok ((l.filter q).reverse ++ kept) := by
    induction l with
    | nil => exact fun kept => rfl
    | cons a l ih =>
      intro kept
      rw [List.filterAuxM, h a List.mem_cons_self, ok_bind,
        ih fun b hb => h b (List.mem_cons_of_mem a hb)]
      cases hq : q a <;> simp [hq]
  rw [List.filterM, haux]
  simp

theorem foldlM_eq_ok {f : β → α → Checked ε β} {g : β → α → β}
    (h : ∀ a ∈ l, ∀ b, f b a = .ok (g b a)) (b : β) : l.foldlM f b = .ok (l.foldl g b) := by
  induction l generalizing b with
  | nil => rfl
  | cons a l ih =>
    rw [List.foldlM_cons, h a List.mem_cons_self, ok_bind,
      ih fun x hx => h x (List.mem_cons_of_mem a hx), List.foldl_cons]

end Checked

/-!
## Columns that are kept
-/

section Select

variable {ε α : Type} {flags : List Bool} {l : List α}

open Checked (at_)

/-- The indices at which a flag is set. -/
def flagged (flags : List Bool) : List Nat :=
  (List.range flags.length).filter fun i => flags[i]?.getD false

theorem flagged_cons (flag : Bool) (flags : List Bool) :
    flagged (flag :: flags) = (if flag then [0] else []) ++ (flagged flags).map Nat.succ := by
  have htail : ((List.range flags.length).map Nat.succ).filter
      (fun i => (flag :: flags)[i]?.getD false) = (flagged flags).map Nat.succ := by
    rw [List.filter_map]
    rfl
  rw [flagged, List.length_cons, List.range_succ_eq_map, List.filter_cons, htail]
  cases flag <;> rfl

theorem nodup_flagged (flags : List Bool) : (flagged flags).Nodup := List.nodup_range.filter _

theorem length_flagged (flags : List Bool) : (flagged flags).length = flags.count true := by
  induction flags with
  | nil => rfl
  | cons flag flags ih =>
    rw [flagged_cons, List.length_append, List.length_map, ih, List.count_cons]
    cases flag <;> simp [Nat.add_comm]

theorem length_select (h : l.length = flags.length) :
    (Source.select flags l).length = flags.count true := by
  induction flags generalizing l with
  | nil => rfl
  | cons flag flags ih =>
    cases l with
    | nil => cases h
    | cons a l =>
      rw [select_cons_cons, List.count_cons, ← ih (Nat.succ.inj h)]
      cases flag <;> simp

/-- Looking up the indices of the flags is selecting. -/
theorem mapM_at_flagged (h : l.length = flags.length) :
    ((flagged flags).mapM (at_ l) : Checked ε (List α)) = .ok (Source.select flags l) := by
  induction flags generalizing l with
  | nil => rfl
  | cons flag flags ih =>
    cases l with
    | nil => cases h
    | cons a l =>
      have htail : (((flagged flags).map Nat.succ).mapM (at_ (a :: l)) : Checked ε (List α)) =
          .ok (Source.select flags l) := by
        rw [List.mapM_map]
        exact ih (Nat.succ.inj h)
      rw [flagged_cons, select_cons_cons]
      cases flag with
      | true =>
        rw [if_pos rfl, if_pos rfl, List.singleton_append, List.mapM_cons, Checked.at_zero,
          Checked.ok_bind, htail]
        rfl
      | false => exact htail

/-- Names are taken from different columns, so none is missed that was taken before. -/
theorem takeNames_eq {columns : List Nat} {names left : List (Option String)} (h : columns.Nodup)
    (hleft : ∀ i ∈ columns, left[i]? = names[i]?) :
    (Sheet.takeNames columns left : Checked ε _) = columns.mapM (at_ names) := by
  induction columns generalizing left with
  | nil => rfl
  | cons column columns ih =>
    obtain ⟨hcolumn, hrest⟩ := List.nodup_cons.1 h
    have hlater : ∀ i ∈ columns, (left.set column none)[i]? = names[i]? := by
      intro i hi
      have hne : column ≠ i := fun heq => hcolumn (heq ▸ hi)
      rw [List.getElem?_set_ne hne]
      exact hleft i (List.mem_cons_of_mem column hi)
    have hhead : (at_ left column : Checked ε _) = at_ names column := by
      rw [at_, hleft column List.mem_cons_self, at_]
    rw [Sheet.takeNames, List.mapM_cons, hhead, ih hrest hlater]

end Select

/-!
## Stages
-/

namespace Record

theorem length_names_rekeyNames (column : Nat) (r : Record) :
    (r.rekeyNames column).names.length = r.names.length := by
  unfold rekeyNames
  split
  · exact length_swapFirst column r.names
  · exact List.length_set

end Record

namespace Editor

/-- Whatever names come back are fitted to the namespaces. -/
theorem length_names_of_mem_run (e : Editor) {namespaces : List String} {memory : e.Memory}
    {records : List Record} {r : Record} (h : r ∈ e.run namespaces memory records) :
    r.names.length = namespaces.length := by
  induction records generalizing memory with
  | nil => exact absurd h List.not_mem_nil
  | cons first records ih =>
    rw [run] at h
    dsimp only at h
    split at h
    · rcases List.mem_cons.1 h with rfl | hlater
      · exact Record.length_names_fit _ _
      · exact ih hlater
    · exact ih h

theorem run_ofEdit (f : RecordEdit) (namespaces : List String) (records : List Record)
    (memory : (ofEdit f).Memory) :
    (ofEdit f).run namespaces memory records =
      (records.filterMap (f namespaces)).map (Record.fit namespaces.length) := by
  induction records with
  | nil => rfl
  | cons r records ih =>
    have hmade : (ofEdit f).edit namespaces r memory = (f namespaces r, memory) := rfl
    rw [run, hmade]
    dsimp only
    rw [ih, List.filterMap_cons]
    cases f namespaces r with
    | none => rfl
    | some made => rfl

end Editor

namespace Sheet

variable {ε : Type}

/-- A record is keyed by a column that it has. -/
theorem rekeyNames_eq {column : Nat} {r : Record} (h : column < r.names.length) :
    (rekeyNames column r : Checked ε _) = .ok (r.rekeyNames column) := by
  have hname : r.name? column = r.names[column] := by
    rw [Record.name?, List.getElem?_eq_getElem h]
    rfl
  have hkey : r.key? = r.names[0] := by
    rw [Record.key?, Record.name?, List.getElem?_eq_getElem (Nat.zero_lt_of_lt h)]
    rfl
  unfold rekeyNames Record.rekeyNames
  rw [Checked.swap_zero_eq h, Checked.at_eq h, Checked.at_eq (Nat.zero_lt_of_lt h), hname, hkey]
  cases r.element.isParam with
  | true => rfl
  | false =>
    simp only [Checked.ok_bind, Checked.put_eq h, Bool.false_eq_true, if_false, Bool.false_or]
    split
    · rfl
    · rfl

end Sheet

namespace Source

variable {ε : Type} {s : Source}

theorem even_iff : (Sheet.ofSource s).Even ↔ s.Even :=
  ⟨fun h => h.full, fun h => ⟨List.cons_ne_nil _ _, h⟩⟩

theorem Even.rename (h : s.Even) (renames : OrderedMap String String) :
    (s.rename renames).Even := by
  intro r hr
  rw [h r hr, width, width, Source.rename, List.length_map]

theorem length_names_rekeyed (s : Source) (column : Nat) (r : Record) :
    (s.rekeyed column r).names.length = r.names.length := by
  have hnames : (s.rekeyed column r).names = (r.keyedBy column (s.classMap column)).names := by
    unfold rekeyed renameMethodOf
    split <;> rfl
  rw [hnames]
  exact Record.length_names_rekeyNames column _

theorem width_rekeyColumn {column : Nat} (h : column < s.width) :
    (s.rekeyColumn column).width = s.width := by
  have hlength := congrArg List.length (namespaces_rekeyColumn h)
  rwa [length_swapFirst] at hlength

theorem Even.rekeyColumn (h : s.Even) {column : Nat} (hcolumn : column < s.width) :
    (s.rekeyColumn column).Even := by
  intro r hr
  rw [records_rekeyColumn] at hr
  obtain ⟨before, hbefore, rfl⟩ := List.mem_map.1 hr
  rw [length_names_rekeyed, width_rekeyColumn hcolumn]
  exact h before hbefore

theorem rekeyColumn_eq (h : s.Even) {column : Nat} (hcolumn : column < s.width) :
    ((Sheet.ofSource s).rekeyColumn column : Checked ε _) =
      .ok (.ofSource (s.rekeyColumn column)) := by
  have hkeyed : (s.records.mapM fun r =>
      Sheet.rekeyNames column
        { r with element := r.element.renameClasses (rekeyedClasses column s.records).get? } :
      Checked ε _) = .ok (s.records.map fun r =>
        { r with element := r.element.renameClasses (rekeyedClasses column s.records).get?
          }.rekeyNames column) :=
    Checked.mapM_eq_ok fun r hr => Sheet.rekeyNames_eq (hcolumn.trans_eq (h r hr).symm)
  unfold Sheet.rekeyColumn
  dsimp only [Sheet.ofSource]
  rw [hkeyed, Checked.swap_zero_eq hcolumn, ← namespaces_rekeyColumn hcolumn]
  rfl

theorem column?_lt {name : String} {column : Nat} (h : s.column? name = some column) :
    column < s.width :=
  (List.idxOf?_eq_some_iff.1 h).1

theorem Even.rekey (h : s.Even) (name : String) : (s.rekey name).Even := by
  unfold Source.rekey
  split
  · exact h
  · split
    · exact h
    · next hcolumn => exact h.rekeyColumn (column?_lt hcolumn)

/-- Keying by a namespace looks up no column that is not there. -/
theorem rekey_eq (h : s.Even) (name : String) :
    ((Sheet.ofSource s).rekey name : Checked ε _) = .ok (.ofSource (s.rekey name)) := by
  unfold Sheet.rekey Source.rekey
  have hkey : (Checked.at_ (Sheet.ofSource s).namespaces 0 : Checked ε _) = .ok s.key := rfl
  rw [hkey, Checked.ok_bind]
  split
  · rfl
  · have hsame : (Sheet.ofSource s).namespaces.idxOf? name = s.column? name := rfl
    rw [hsame]
    cases hcolumn : s.column? name with
    | none => rfl
    | some column => exact rekeyColumn_eq h (column?_lt hcolumn)

/-- Without evenness the program ends. -/
example :
    (Sheet.rekey "b" ⟨["a", "b"], [], [⟨.type, [some "x"], none⟩]⟩ : Checked Unit _) =
      .error (.crash .index) := rfl

section Keep

variable (s) (filter : List String)

theorem length_keptColumns : (s.keptColumns filter).length = s.width := by
  simp [keptColumns, width]

theorem keeps_eq {column : Nat} (h : column < s.width) :
    (Sheet.keeps filter s.namespaces column : Checked ε _) =
      .ok ((s.keptColumns filter)[column]?.getD false) := by
  cases column with
  | zero => rfl
  | succ column =>
    have hcolumn : column < s.destinations.length := Nat.lt_of_succ_lt_succ h
    rw [Sheet.keeps, if_neg (Nat.succ_ne_zero column), namespaces, Checked.at_succ,
      Checked.at_eq hcolumn]
    simp [keptColumns, hcolumn]

theorem filterM_keeps :
    ((List.range s.namespaces.length).filterM (Sheet.keeps filter s.namespaces) : Checked ε _) =
      .ok (flagged (s.keptColumns filter)) := by
  rw [flagged, length_keptColumns]
  exact Checked.filterM_eq_ok fun column hcolumn => keeps_eq s filter (List.mem_range.1 hcolumn)

theorem select_namespaces :
    select (s.keptColumns filter) s.namespaces =
      s.key :: select (s.keptColumns filter).tail s.destinations :=
  select_cons_cons true _ s.key s.destinations

end Keep

theorem Even.keep (h : s.Even) (filter : List String) : (s.keep filter).Even := by
  by_cases hempty : filter.isEmpty = true
  · rwa [Source.keep, if_pos hempty]
  · rw [Source.keep, if_neg hempty]
    intro r hr
    obtain ⟨before, hbefore, rfl⟩ := List.mem_map.1 hr
    have hnames := length_select ((h before hbefore).trans (s.length_keptColumns filter).symm)
    have hnamespaces := length_select (s.length_keptColumns filter).symm (l := s.namespaces)
    rw [select_namespaces] at hnamespaces
    exact hnames.trans hnamespaces.symm

/-- A selection of all columns changes nothing. -/
theorem select_eq_self {α : Type} {flags : List Bool} {l : List α} (h : l.length = flags.length)
    (hall : (flagged flags).length = flags.length) : select flags l = l := by
  refine (select_sublist flags l).eq_of_length ?_
  rw [length_select h, ← length_flagged, hall, h]

/-- Leaving columns out looks up no column that is not there. -/
theorem keep_eq (h : s.Even) (filter : List String) :
    ((Sheet.ofSource s).keep filter : Checked ε _) = .ok (.ofSource (s.keep filter)) := by
  by_cases hempty : filter.isEmpty = true
  · rw [Sheet.keep, if_pos hempty, Source.keep, if_pos hempty]
    rfl
  have hflags := s.length_keptColumns filter
  have hselected : Sheet.ofSource (s.keep filter) =
      ⟨select (s.keptColumns filter) s.namespaces, s.lineage,
        s.records.map fun r => { r with names := select (s.keptColumns filter) r.names }⟩ := by
    rw [select_namespaces, Source.keep, if_neg hempty]
    rfl
  have hcolumns : ((List.range (Sheet.ofSource s).namespaces.length).filterM
      (Sheet.keeps filter (Sheet.ofSource s).namespaces) : Checked ε _) =
        .ok (flagged (s.keptColumns filter)) := filterM_keeps s filter
  rw [hselected, Sheet.keep, if_neg hempty, hcolumns, Checked.ok_bind]
  have hnamespaces : (Sheet.ofSource s).namespaces.length = (s.keptColumns filter).length :=
    hflags.symm
  have hnames : ∀ r ∈ s.records, r.names.length = (s.keptColumns filter).length :=
    fun r hr => (h r hr).trans hflags.symm
  generalize s.keptColumns filter = flags at *
  split
  · next hall =>
    -- every column is kept, so nothing is left out
    rw [hnamespaces] at hall
    have hrecords : s.records.map (fun r => { r with names := select flags r.names }) =
        s.records := by
      refine (List.map_congr_left fun r hr => ?_).trans (List.map_id s.records)
      rw [select_eq_self (hnames r hr) hall]
      rfl
    have hall' : select flags s.namespaces = s.namespaces := select_eq_self hnamespaces hall
    rw [hall', hrecords]
    rfl
  · have hrecords : ((Sheet.ofSource s).records.mapM fun r => do
        return { r with names := ← Sheet.takeNames (flagged flags) r.names } : Checked ε _) =
          .ok (s.records.map fun r => { r with names := select flags r.names }) := by
      refine Checked.mapM_eq_ok fun r hr => ?_
      rw [takeNames_eq (nodup_flagged flags) fun _ _ => rfl, mapM_at_flagged (hnames r hr)]
      rfl
    rw [mapM_at_flagged hnamespaces, Checked.ok_bind, hrecords]
    rfl

/-- Let a caller edit every record who may remember the records before. -/
def editBy (s : Source) (e : Editor) : Source :=
  { s with records := e.run s.namespaces e.start s.records }

theorem even_editBy (s : Source) (e : Editor) : (s.editBy e).Even :=
  fun _ hr => e.length_names_of_mem_run hr

theorem editBy_ofEdit (s : Source) (f : RecordEdit) : s.editBy (.ofEdit f) = s.edit f :=
  congrArg (fun records => { s with records }) (Editor.run_ofEdit f s.namespaces s.records _)

/-- What there is before the first stage and after each stage. -/
def stages (p : Pipeline) (s : Source) : List Source :=
  let renamed := s.rename p.renames
  let keyed := renamed.rekey p.source
  let kept := keyed.keep p.filter
  [s, renamed, keyed, kept] ++ (p.editor.map kept.editBy).toList

theorem getLast?_stages (s : Source) (a : Adaptation) :
    (s.stages a.pipeline).getLast? = some (s.adapt a) := by
  unfold stages adapt Adaptation.pipeline
  cases a.edit with
  | none => rfl
  | some f => exact congrArg some (editBy_ofEdit _ f)

theorem Even.stages (h : s.Even) (p : Pipeline) : ∀ stage ∈ s.stages p, stage.Even := by
  have hrenamed := h.rename p.renames
  have hkeyed := hrenamed.rekey p.source
  have hkept := hkeyed.keep p.filter
  simp only [Source.stages, List.forall_mem_append, List.forall_mem_cons]
  refine ⟨⟨h, hrenamed, hkeyed, hkept, List.forall_mem_nil _⟩, ?_⟩
  cases p.editor with
  | none => exact List.forall_mem_nil _
  | some e => exact List.forall_mem_singleton.2 (even_editBy _ e)

/-- No stage looks up a column that is not there. -/
theorem stages_eq (h : s.Even) (p : Pipeline) :
    ((Sheet.ofSource s).stages p : Checked ε _) = .ok ((s.stages p).map .ofSource) := by
  have hrenamed := h.rename p.renames
  have hkeyed := hrenamed.rekey p.source
  have hrename : (Sheet.ofSource s).rename p.renames = .ofSource (s.rename p.renames) := rfl
  rw [Sheet.stages, hrename, rekey_eq hrenamed, Checked.ok_bind, keep_eq hkeyed, Checked.ok_bind,
    Source.stages, List.map_append]
  cases p.editor with
  | none => rfl
  | some e => rfl

end Source

end JarRemap
