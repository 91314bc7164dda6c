import JarRemap.Proofs.Format.LineReader
import JarRemap.Proofs.Format.TinyTree.Document
import JarRemap.Proofs.Text.Split
import JarRemap.Proofs.Text.Words

/-!
# Documents are read as they were written

The text of a document is read back as the records of the document. Between two rows it is known
which records have been read and what is open, the outermost first; a row adds a record and opens
it, or changes the comment of a record that is open. More may be open than is asked for, since a row
closes what is deeper than itself.
-/

namespace JarRemap.Format.TinyTree

variable {escaped : Bool} {width : Nat}

section Rows

theorem Column.not_mem_text (c : Column) {x : Char} (hx : isBreak x = true) : x ∉ c.text.toList :=
  fun h => Bool.false_ne_true ((c.unbroken x h).symm.trans hx)

theorem not_mem_behindTabs {x : Char} (hx : isBreak x = true) (htab : x ≠ '\t')
    (columns : List Column) : x ∉ behindTabs columns := by
  simp only [behindTabs, List.mem_flatMap, List.mem_cons, htab, false_or, not_exists, not_and]
  exact fun c _ => c.not_mem_text hx

theorem splitOn_behindTabs (start : List Char) (h : '\t' ∉ start) (columns : List Column) :
    Text.splitOn '\t' (start ++ behindTabs columns) =
      start :: columns.map fun c => c.text.toList := by
  have hcolumns : ∀ part ∈ columns.map fun c => c.text.toList, '\t' ∉ part := by
    intro part hpart
    obtain ⟨c, -, rfl⟩ := List.mem_map.1 hpart
    exact c.not_mem_text rfl
  rw [← Text.splitOn_flatMap h hcolumns, List.flatMap_map]
  rfl

theorem Row.kind_ne (r : Row) : r.kind ≠ '\t' ∧ r.kind ≠ '\n' ∧ r.kind ≠ '\r' := by
  have hvisible := r.visible
  refine ⟨?_, ?_, ?_⟩ <;> intro h <;> rw [h] at hvisible <;> exact absurd hvisible (by decide)

/-- No character of a row ends a line. -/
theorem Row.not_mem_text (r : Row) {x : Char} (hx : x = '\n' ∨ x = '\r') : x ∉ r.text := by
  have hbreak : isBreak x = true := by rcases hx with rfl | rfl <;> rfl
  have htab : x ≠ '\t' := by rcases hx with rfl | rfl <;> decide
  have hkind : x ≠ r.kind := by
    rcases hx with rfl | rfl
    · exact r.kind_ne.2.1.symm
    · exact r.kind_ne.2.2.symm
  simp only [text, List.mem_append, List.mem_replicate, List.mem_cons, htab, hkind, and_false,
    false_or]
  exact not_mem_behindTabs hbreak htab r.columns

/-- What a row does, given that just what it belongs to is open. -/
def Row.read (s : State) (r : Row) : Except Fault State :=
  let kind := String.ofList [r.kind]
  let columns := r.columns.map fun c => c.text.toList
  match s.opened.getLast? with
  | some .variable => if kind = "c" then .ok s else .error .entryInsideVariable
  | some (.record index) =>
      if kind = "c" then .ok (s.comment index (columns.getD 0 []))
      else entry s kind columns s.records[index]?
  | none => entry s kind columns none

/-- The line of a row is taken apart again. -/
theorem step_row {s : State} {r : Row} (hdepth : r.depth ≤ s.opened.length) :
    step s r.text = r.read { s with opened := s.opened.take r.depth } := by
  have htabs : r.text.takeWhile (· = '\t') = List.replicate r.depth '\t' := by
    rw [Row.text, List.takeWhile_append_of_pos (by simp), List.takeWhile_cons_of_neg (by
      simpa using r.kind_ne.1), List.append_nil]
  have hrest : r.text.drop r.depth = [r.kind] ++ behindTabs r.columns := by
    rw [Row.text, List.drop_left' List.length_replicate]
    rfl
  have hshown : (Text.trim r.text).isEmpty = false := by
    rw [List.isEmpty_eq_false_iff]
    exact Text.trim_ne_nil (by simp [Row.text]) r.visible
  have hparts := splitOn_behindTabs [r.kind] (by simpa using r.kind_ne.1.symm) r.columns
  simp only [step, hshown, htabs, List.length_replicate, hrest, hparts, Nat.not_lt.2 hdepth,
    Bool.false_eq_true, if_false]
  rfl

end Rows

section Names

/-- A name is read back from its column, and an empty column is no name. -/
theorem readName_nameColumn {s : State} (h : s.escaped = escaped) (name : Option (Name escaped)) :
    s.readName (nameColumn name).text.toList = name.map Name.text := by
  cases name with
  | none => cases hs : s.escaped <;> simp [State.readName, nameColumn, Column.empty, hs] <;> rfl
  | some name =>
    have hname : nameOrNone name.text.toList = some name.text := by
      simp [nameOrNone, name.nonempty]
    by_cases hescaped : escaped = true
    · simp [State.readName, nameColumn, Name.column, Column.escaped, h, hescaped, hname,
        unescape_escape]
    · simp [State.readName, nameColumn, Name.column, h, hescaped, hname]

theorem map_readName {s : State} (h : s.escaped = escaped) (names : Names escaped width) :
    (names.columns.map fun c => c.text.toList).map s.readName = names.texts := by
  rw [Names.columns, List.map_map, List.map_map, Names.texts]
  exact List.map_congr_left fun name _ => readName_nameColumn h name

@[simp] theorem length_texts (names : Names escaped width) : names.texts.length = width := by
  rw [Names.texts, List.length_map, Vector.length_toList]

/-- A record is keyed as the element that it is of. -/
theorem key?_texts (element : Element) (comment : Option String) (names : Names escaped width) :
    Record.key? ⟨element, names.texts, comment⟩ = names.key? := by
  rw [Record.key?, Record.name?, Names.key?, List.head?_eq_getElem?]

end Names

/-- The state in which just these records have been read and these parents are open. -/
def State.of (escaped : Bool) (width : Nat) (records : List Record) (parents : List Open) : State :=
  ⟨escaped, width, records.toArray, parents⟩

/-- These records have been read, and these parents are open, perhaps with more inside of them. -/
structure At (escaped : Bool) (width : Nat) (records : List Record) (parents : List Open)
    (s : State) : Prop where
  escaped : s.escaped = escaped
  width : s.width = width
  records : s.records = records.toArray
  opened : parents <+: s.opened

section Steps

variable {records before after : List Record} {parents : List Open} {r : Record}

theorem at_of (escaped : Bool) (width : Nat) (records : List Record) (parents : List Open) :
    At escaped width records parents (State.of escaped width records parents) :=
  ⟨rfl, rfl, rfl, List.prefix_refl parents⟩

/-- What is open inside does not matter. -/
theorem At.outer (parents : List Open) {inner : List Open} {s : State}
    (h : At escaped width records (parents ++ inner) s) : At escaped width records parents s :=
  { h with opened := (List.prefix_append parents inner).trans h.opened }

/-- A row below its parents closes what is open inside of them, and does what it does. -/
theorem leads_row (row : Row) (hdepth : row.depth = parents.length) {Q : State → Prop}
    {s' : State} (hread : row.read (State.of escaped width records parents) = .ok s') (hs' : Q s') :
    Leads step (At escaped width records parents) [row.text] Q := by
  refine .cons (fun s hs => ⟨s', ?_, hs'⟩) (leads_nil fun _ => id)
  have hlength : row.depth ≤ s.opened.length := hdepth ▸ hs.opened.length_le
  have htake : s.opened.take row.depth = parents := by
    rw [hdepth]
    exact (List.prefix_iff_eq_take.1 hs.opened).symm
  obtain ⟨escaped', width', records', opened⟩ := s
  obtain ⟨rfl, rfl, rfl, -⟩ := hs
  rw [step_row hlength, ← hread, htake]
  rfl

theorem push_of (r : Record) :
    (State.of escaped width records parents).push r =
      State.of escaped width (records ++ [r.fit width]) (parents ++ [.record records.length]) := by
  simp [State.push, State.of]

theorem comment_of (text : String) :
    (State.of escaped width (before ++ r :: after) parents).comment before.length
        (escape text.toList) =
      State.of escaped width (before ++ { r with comment := some text } :: after) parents := by
  simp [State.comment, State.of, unescape_escape, List.modify_eq_take_cons_drop]

theorem getElem?_of :
    (State.of escaped width (before ++ r :: after) parents).records[before.length]? = some r := by
  simp [State.of]

/-- A comment changes the record that it stands below. -/
theorem leads_comment (parents : List Open) (text : String) {depth : Nat}
    (hdepth : depth = parents.length + 1) :
    Leads step (At escaped width (before ++ r :: after) (parents ++ [.record before.length]))
      [(Row.comment depth text).text]
      (At escaped width (before ++ { r with comment := some text } :: after)
        (parents ++ [.record before.length])) := by
  refine leads_row _ (by simp [Row.comment, hdepth]) ?_ (at_of _ _ _ _)
  rw [← comment_of]
  simp [Row.read, Row.comment, State.of, Column.escaped]

/-- Of the comments below a record the last one counts. -/
theorem leads_comments (comments : List String) {depth : Nat} (hdepth : depth = parents.length + 1)
    (r : Record) :
    Leads step (At escaped width (before ++ r :: after) (parents ++ [.record before.length]))
      ((comments.map (Row.comment depth)).map Row.text)
      (At escaped width
        (before ++ { r with comment := comments.getLast?.or r.comment } :: after)
        (parents ++ [.record before.length])) := by
  induction comments generalizing r with
  | nil => exact leads_nil fun _ => id
  | cons text comments ih =>
    have hlast : (text :: comments).getLast?.or r.comment = comments.getLast?.or (some text) := by
      rw [List.getLast?_cons]
      cases comments.getLast? <;> rfl
    rw [hlast]
    exact (leads_comment parents text hdepth).append (ih { r with comment := some text })

/-- The comments below a local variable are read over. -/
theorem leads_ignored (comments : List String) {depth : Nat} (hdepth : depth = parents.length + 1) :
    Leads step (At escaped width records (parents ++ [.variable]))
      ((comments.map (Row.comment depth)).map Row.text)
      (At escaped width records (parents ++ [.variable])) := by
  induction comments with
  | nil => exact leads_nil fun _ => id
  | cons text comments ih =>
    refine Leads.append (leads_row _ (by simp [Row.comment, hdepth]) ?_ (at_of _ _ _ _)) ih
    simp [Row.read, Row.comment, State.of]

/-- A record with its comments below. -/
theorem leads_described {row : Row} {depth : Nat} (comments : List String)
    (hdepth : row.depth = parents.length) (hbelow : depth = parents.length + 1)
    (hlength : r.names.length = width)
    (hread : row.read (State.of escaped width records parents) =
      .ok ((State.of escaped width records parents).push { r with comment := none })) :
    Leads step (At escaped width records parents)
      ((row :: comments.map (Row.comment depth)).map Row.text)
      (At escaped width (records ++ [{ r with comment := comments.getLast? }]) parents) := by
  have hfit : Record.fit width { r with comment := none } = { r with comment := none } :=
    Record.fit_of_length hlength
  rw [push_of, hfit] at hread
  have hcomments : Leads step
      (At escaped width (records ++ [{ r with comment := none }]) _) _
      (At escaped width (records ++ [{ r with comment := comments.getLast?.or none }]) _) :=
    leads_comments comments hbelow { r with comment := none }
  rw [Option.or_none] at hcomments
  exact ((leads_row row hdepth hread (at_of _ _ _ _)).append hcomments).weaken fun _ => At.outer _

end Steps

section Entries

variable (records before after : List Record) (parents : List Open) {parent : Record}
  {owner desc : String}

/-- The columns of names are read as the names, of which there is at least one. -/
theorem exists_columns (names : Names escaped (width + 1)) :
    ∃ raw raws, names.columns.map (fun c => c.text.toList) = raw :: raws ∧
      ∀ s : State, s.escaped = escaped → (raw :: raws).map s.readName = names.texts := by
  obtain ⟨raw, raws, hraws⟩ := List.exists_cons_of_length_eq_add_one
    (l := names.columns.map fun c => c.text.toList) (n := width) (by simp [Names.columns])
  exact ⟨raw, raws, hraws, fun s hs => hraws ▸ map_readName hs names⟩

/-- A row below a record is an entry inside of it, or its comment. -/
theorem read_below {row : Row} (hkind : row.kind ≠ 'c') :
    row.read (State.of escaped width (before ++ parent :: after)
        (parents ++ [.record before.length])) =
      entry
        (State.of escaped width (before ++ parent :: after) (parents ++ [.record before.length]))
        (String.ofList [row.kind]) (row.columns.map fun c => c.text.toList) (some parent) := by
  have hcomment : String.ofList [row.kind] ≠ "c" := by
    intro h
    have hlist := congrArg String.toList h
    rw [String.toList_ofList] at hlist
    exact hkind (List.cons.inj hlist).1
  have hlast : (State.of escaped width (before ++ parent :: after)
      (parents ++ [.record before.length])).opened.getLast? = some (.record before.length) :=
    List.getLast?_concat
  rw [Row.read, hlast]
  simp only [hcomment, if_false, getElem?_of]

theorem Class.read_row (c : Class escaped (width + 1)) :
    c.row.read (State.of escaped (width + 1) records []) =
      .ok ((State.of escaped (width + 1) records []).push ⟨.type, c.names.texts, none⟩) := by
  obtain ⟨raw, raws, hraws, hnames⟩ := exists_columns c.names
  rw [Row.read, row, hraws, ← hnames (State.of escaped (width + 1) records []) rfl]
  rfl

theorem Field.read_row (f : Field escaped (width + 1)) (helement : parent.element = .type)
    (hkey : parent.key? = some owner) :
    let s := State.of escaped (width + 1) (before ++ parent :: after)
      (parents ++ [.record before.length])
    f.row.read s = .ok (s.push ⟨.field owner (some f.desc.text), f.names.texts, none⟩) := by
  intro s
  obtain ⟨raw, raws, hraws, hnames⟩ := exists_columns f.names
  rw [read_below before after parents (show 'f' ≠ 'c' by decide), ← hnames s rfl, row,
    List.map_cons, hraws]
  simp [entry, helement, hkey, s]

theorem Method.read_row (m : Method escaped (width + 1)) (helement : parent.element = .type)
    (hkey : parent.key? = some owner) :
    let s := State.of escaped (width + 1) (before ++ parent :: after)
      (parents ++ [.record before.length])
    m.row.read s = .ok (s.push ⟨.method owner (some m.desc.text), m.names.texts, none⟩) := by
  intro s
  obtain ⟨raw, raws, hraws, hnames⟩ := exists_columns m.names
  rw [read_below before after parents (show 'm' ≠ 'c' by decide), ← hnames s rfl, row,
    List.map_cons, hraws]
  simp [entry, helement, hkey, s]

theorem Parameter.read_row (p : Parameter escaped width) {method : String}
    (helement : parent.element = .method owner (some desc)) (hkey : parent.key? = some method) :
    let s := State.of escaped width (before ++ parent :: after) (parents ++ [.record before.length])
    p.row.read s =
      .ok (s.push ⟨.param owner method (some desc) p.index, p.names.texts, none⟩) := by
  intro s
  have hindex : readIndex "parameter" (Column.ofIndex p.index).text.toList = .ok p.index := by
    simp [readIndex, Column.ofIndex, Text.index?_decimal]
  have hnames := map_readName (show s.escaped = escaped from rfl) p.names
  rw [read_below before after parents (show 'p' ≠ 'c' by decide), ← hnames, row, List.map_cons]
  simp only [entry, Option.map_some, helement, Option.bind_some, hkey, hindex]
  rfl

theorem LocalVariable.read_row (v : LocalVariable escaped width)
    (helement : parent.element = .method owner (some desc)) :
    v.row.read (State.of escaped width (before ++ parent :: after)
        (parents ++ [.record before.length])) =
      .ok (State.of escaped width (before ++ parent :: after)
        (parents ++ [.record before.length] ++ [.variable])) := by
  rw [read_below before after parents (show 'v' ≠ 'c' by decide)]
  simp [entry, helement, row, State.of]

end Entries

section Items

variable (records before after : List Record) (parents : List Open) (parent : Record)
  {owner desc : String}

/-- The comment that counts behind one more comment, or none. -/
theorem getLast?_filterMap_cons {α : Type} (comment? : α → Option String) (item : α)
    (items : List α) (comment : Option String) :
    ((item :: items).filterMap comment?).getLast?.or comment =
      (items.filterMap comment?).getLast?.or ((comment? item).or comment) := by
  cases hitem : comment? item with
  | none => rw [List.filterMap_cons_none hitem, Option.none_or]
  | some text =>
    rw [List.filterMap_cons_some hitem, List.getLast?_cons]
    cases (items.filterMap comment?).getLast? <;> rfl

/-- What stands below a method adds the record of a parameter, or changes the comment of the
method. -/
theorem leads_methodItem (item : MethodItem escaped width)
    (helement : parent.element = .method owner (some desc))
    (hkey : parent.key? = none → item.comment?.isSome) (hdepth : parents.length = 1) :
    Leads step (At escaped width (before ++ parent :: after) (parents ++ [.record before.length]))
      (item.rows.map Row.text)
      (At escaped width
        (before ++ { parent with comment := item.comment?.or parent.comment } ::
          (after ++ item.records owner (parent.key?.getD "") desc))
        (parents ++ [.record before.length])) := by
  have hlength : (parents ++ [Open.record before.length]).length = 2 := by simp [hdepth]
  cases item with
  | comment text =>
    simp only [MethodItem.records, List.append_nil]
    exact leads_comment parents text (by rw [hdepth])
  | parameter p =>
    obtain ⟨method, hmethod⟩ := Option.ne_none_iff_exists'.1 fun h => Bool.false_ne_true (hkey h)
    have hread := p.read_row before after parents helement hmethod
    have hrows := leads_described (r := p.record owner method desc) p.comments hlength.symm
      (show 3 = _ by rw [hlength]) (length_texts _) hread
    rw [List.append_assoc, List.cons_append] at hrows
    rw [hmethod]
    exact hrows
  | localVariable v =>
    have hread := v.read_row before after parents helement
    have hrow := leads_row v.row hlength.symm hread (at_of _ _ _ _)
    have hrows := hrow.append (leads_ignored v.comments (show 3 = _ by rw [hlength]))
    simp only [MethodItem.records, List.append_nil]
    exact hrows.weaken fun _ => At.outer _

theorem leads_methodItems (items : List (MethodItem escaped width))
    (helement : parent.element = .method owner (some desc))
    (hkey : parent.key? = none → ∀ item ∈ items, item.comment?.isSome)
    (hdepth : parents.length = 1) :
    Leads step (At escaped width (before ++ parent :: after) (parents ++ [.record before.length]))
      ((items.flatMap MethodItem.rows).map Row.text)
      (At escaped width
        (before ++ { parent with
            comment := (items.filterMap MethodItem.comment?).getLast?.or parent.comment } ::
          (after ++ items.flatMap (MethodItem.records owner (parent.key?.getD "") desc)))
        (parents ++ [.record before.length])) := by
  induction items generalizing parent after with
  | nil => simpa using leads_nil fun _ => id
  | cons item items ih =>
    have hitem := leads_methodItem before after parents parent item helement
      (fun h => hkey h item List.mem_cons_self) hdepth
    have hitems := ih (after ++ item.records owner (parent.key?.getD "") desc)
      { parent with comment := item.comment?.or parent.comment } helement
      fun h other hother => hkey h other (List.mem_cons_of_mem item hother)
    rw [List.flatMap_cons, List.map_append, getLast?_filterMap_cons, List.flatMap_cons,
      ← List.append_assoc after]
    exact hitem.append hitems

/-- What stands below a class adds the records of a member, or changes the comment of the class. -/
theorem leads_classItem (item : ClassItem escaped (width + 1)) (helement : parent.element = .type)
    (hkey : parent.key? = none → item.comment?.isSome) :
    Leads step (At escaped (width + 1) (before ++ parent :: after) [.record before.length])
      (item.rows.map Row.text)
      (At escaped (width + 1)
        (before ++ { parent with comment := item.comment?.or parent.comment } ::
          (after ++ item.records (parent.key?.getD "")))
        [.record before.length]) := by
  cases item with
  | comment text =>
    simp only [ClassItem.records, List.append_nil]
    exact leads_comment [] text rfl
  | field f =>
    obtain ⟨owner, howner⟩ := Option.ne_none_iff_exists'.1 fun h => Bool.false_ne_true (hkey h)
    have hread := f.read_row before after [] helement howner
    have hrows := leads_described (r := f.record owner) f.comments rfl (show 2 = _ from rfl)
      (length_texts _) hread
    rw [List.append_assoc, List.cons_append] at hrows
    rw [howner]
    exact hrows
  | method m =>
    obtain ⟨owner, howner⟩ := Option.ne_none_iff_exists'.1 fun h => Bool.false_ne_true (hkey h)
    have hread := m.read_row before after [] helement howner
    dsimp only at hread
    rw [push_of, Record.fit_of_length (length_texts m.names)] at hread
    have hrow := leads_row m.row rfl hread (at_of _ _ _ _)
    have hitems := leads_methodItems (before ++ parent :: after) [] [.record before.length]
      ⟨.method owner (some m.desc.text), m.names.texts, none⟩ m.items rfl
      (key?_texts _ _ m.names ▸ m.keyed) rfl
    rw [Option.or_none, List.nil_append, key?_texts] at hitems
    have hrows := (hrow.append hitems).weaken fun _ => At.outer _
    rw [List.append_assoc, List.cons_append] at hrows
    rw [howner]
    exact hrows

theorem leads_classItems (items : List (ClassItem escaped (width + 1)))
    (helement : parent.element = .type)
    (hkey : parent.key? = none → ∀ item ∈ items, item.comment?.isSome) :
    Leads step (At escaped (width + 1) (before ++ parent :: after) [.record before.length])
      ((items.flatMap ClassItem.rows).map Row.text)
      (At escaped (width + 1)
        (before ++ { parent with
            comment := (items.filterMap ClassItem.comment?).getLast?.or parent.comment } ::
          (after ++ items.flatMap (ClassItem.records (parent.key?.getD ""))))
        [.record before.length]) := by
  induction items generalizing parent after with
  | nil => simpa using leads_nil fun _ => id
  | cons item items ih =>
    have hitem := leads_classItem before after parent item helement
      fun h => hkey h item List.mem_cons_self
    have hitems := ih (after ++ item.records (parent.key?.getD ""))
      { parent with comment := item.comment?.or parent.comment } helement
      fun h other hother => hkey h other (List.mem_cons_of_mem item hother)
    rw [List.flatMap_cons, List.map_append, getLast?_filterMap_cons, List.flatMap_cons,
      ← List.append_assoc after]
    exact hitem.append hitems

/-- A class adds its records. -/
theorem leads_class (c : Class escaped (width + 1)) :
    Leads step (At escaped (width + 1) records []) (c.rows.map Row.text)
      (At escaped (width + 1) (records ++ c.records) []) := by
  have hread := c.read_row records
  rw [push_of, Record.fit_of_length (length_texts c.names)] at hread
  have hrow := leads_row c.row rfl hread (at_of _ _ _ _)
  have hitems := leads_classItems records [] ⟨.type, c.names.texts, none⟩ c.items rfl
    (key?_texts _ _ c.names ▸ c.keyed)
  rw [Option.or_none, List.nil_append, key?_texts] at hitems
  exact (hrow.append hitems).weaken fun _ => At.outer []

theorem leads_classes (classes : List (Class escaped (width + 1))) :
    Leads step (At escaped (width + 1) records []) ((classes.flatMap Class.rows).map Row.text)
      (At escaped (width + 1) (records ++ classes.flatMap Class.records) []) := by
  induction classes generalizing records with
  | nil => simpa using leads_nil fun _ => id
  | cons c classes ih =>
    rw [List.flatMap_cons, List.map_append, List.flatMap_cons, ← List.append_assoc]
    exact (leads_class records c).append (ih _)

end Items

section Lines

variable (d : Document)

/-- No character of a line of a document ends a line. -/
theorem Document.not_mem_lines {line : List Char} (h : line ∈ d.lines) {x : Char}
    (hx : x = '\n' ∨ x = '\r') : x ∉ line := by
  have hbreak : isBreak x = true := by rcases hx with rfl | rfl <;> rfl
  rw [lines, List.mem_cons, List.mem_append] at h
  rcases h with hline | hline | hline
  · have hformat : x ∉ "tiny\t2\t0".toList := by rcases hx with rfl | rfl <;> decide
    have htab : x ≠ '\t' := by rcases hx with rfl | rfl <;> decide
    rw [hline]
    unfold Document.header
    rw [List.mem_append, not_or]
    exact ⟨hformat, not_mem_behindTabs hbreak htab _⟩
  · rw [properties] at hline
    split at hline
    · rw [List.mem_singleton.1 hline]
      rcases hx with rfl | rfl <;> decide
    · cases hline
  · obtain ⟨r, -, rfl⟩ := List.mem_map.1 hline
    exact r.not_mem_text hx

theorem Document.lines_print : Text.lines d.print = d.lines :=
  Text.lines_flatMap fun _ h => ⟨d.not_mem_lines h (.inl rfl), d.not_mem_lines h (.inr rfl)⟩

/-- The namespaces are read from the first line. -/
theorem header_behindTabs (key : Column) (others : List Column) :
    header (some ("tiny\t2\t0".toList ++ behindTabs (key :: others))) =
      .ok (key.text, others.map Column.text) := by
  have hformat : "tiny\t2\t".toList.isPrefixOf
      ("tiny\t2\t0".toList ++ behindTabs (key :: others)) = true := rfl
  have hsplit : Text.splitOn '\t' ("tiny\t2\t0".toList ++ behindTabs (key :: others)) =
      "tiny".toList :: ['2'] :: ['0'] :: (key :: others).map fun c => c.text.toList := by
    have hcolumns := splitOn_behindTabs ['0'] (by decide) (key :: others)
    rw [← hcolumns]
    rfl
  simp only [header, hformat, if_true, hsplit, List.drop_succ_cons, List.drop_zero,
    List.map_cons, List.map_map]
  simp [Function.comp_def]

theorem header_header :
    TinyTree.header (some d.header) = .ok (d.key.text, d.others.map Column.text) :=
  header_behindTabs d.key d.others

theorem isProperty_of_mem_properties {line : List Char} (h : line ∈ d.properties) :
    isProperty line = true := by
  rw [Document.properties] at h
  split at h
  · rw [List.mem_singleton.1 h]
    rfl
  · cases h

/-- The rows begin with a class, which is no property. -/
theorem not_isProperty_head?_rows {line : List Char} (h : line ∈ (d.rows.map Row.text).head?) :
    isProperty line = false := by
  rw [Document.rows] at h
  cases hclasses : d.classes with
  | nil =>
    rw [hclasses] at h
    cases h
  | cons c classes =>
    rw [hclasses] at h
    obtain rfl := Option.some.inj h
    rfl

theorem any_saysEscaped : d.properties.any saysEscaped = d.escaped := by
  rw [Document.properties]
  cases d.escaped <;> rfl

end Lines

/-- Behind the first line and the properties a text is read row by row. -/
theorem parse_of_lines {text first : List Char} {properties rows : List (List Char)} {key : String}
    {others : List String} {s : State} (hlines : Text.lines text = first :: (properties ++ rows))
    (hheader : header (some first) = .ok (key, others))
    (hproperties : ∀ line ∈ properties, isProperty line = true)
    (hrows : ∀ line ∈ rows.head?, isProperty line = false)
    (hread : rows.foldlM step ⟨properties.any saysEscaped, others.length + 1, #[], []⟩ = .ok s) :
    parse text = .ok { Source.start key others with records := s.records.toList } := by
  rw [← Text.map_snd_numberedLines] at hlines
  obtain ⟨line, rest, hnumbered, rfl, hrest⟩ := List.map_eq_cons_iff.1 hlines
  have hspan : (properties ++ rows).takeWhile isProperty = properties ∧
      (properties ++ rows).dropWhile isProperty = rows := by
    rw [List.takeWhile_append_of_pos hproperties, List.dropWhile_append_of_pos hproperties]
    cases rows with
    | nil => simp
    | cons row rows => simp [hrows row rfl]
  rw [← hrest, List.takeWhile_map, List.dropWhile_map] at hspan
  rw [← hspan.1, ← hspan.2, List.any_map] at hread
  have hfold : foldLines step
      ⟨(rest.takeWhile fun line => isProperty line.2).any fun line => saysEscaped line.2,
        (Source.start key others).width, #[], []⟩
      (rest.dropWhile fun line => isProperty line.2) = .ok s := foldLines_of_foldlM hread
  rw [parse]
  simp only [hnumbered, List.tail_cons, List.head?_cons, Option.map_some, hheader, Except.mapError,
    bind, Except.bind, hfold]
  rfl

/-- The text of a document is read back as just its records, whether names are escaped or not. -/
theorem parse_document (d : Document) : parse d.print = .ok d.source := by
  obtain ⟨s, hs, hat⟩ := leads_classes [] d.classes _ (at_of d.escaped _ [] [])
  have hread : (d.rows.map Row.text).foldlM step ⟨d.properties.any saysEscaped,
      (d.others.map Column.text).length + 1, #[], []⟩ = .ok s := by
    rw [any_saysEscaped, List.length_map]
    exact hs
  rw [parse_of_lines d.lines_print (header_header d) (fun _ => isProperty_of_mem_properties d)
    (fun _ => not_isProperty_head?_rows d) hread, hat.records]
  rfl

end JarRemap.Format.TinyTree
