import JarRemap.Manifest
import JarRemap.Proofs.Text.Utf8
import Mathlib.Data.List.Infix
import Mathlib.Data.List.Nodup
import Mathlib.Data.List.Perm.Subperm
import Mathlib.Tactic.MkIffOfInductiveProp

/-!
# Manifests and their texts

How lines are folded and put together again, and what becomes of a whole manifest.
-/

/-!
## Lines of manifests

A text is folded into pieces, one on each line; all but the first stand behind a space. Put together
the pieces are the text, and the first piece is the part of it that fits into the room there is.
-/

namespace JarRemap.Manifest

open Text

/-- The pieces that a text is folded into: what still fits, and what each further line holds. -/
def pieces (room : Nat) : List Char → List Char × List (List Char)
  | [] => ([], [])
  | c :: rest =>
      let size := encodedSize c
      if size ≤ room then
        let later := pieces (room - size) rest
        (c :: later.1, later.2)
      else
        let later := pieces (lineLimit - 1 - size) rest
        ([], (c :: later.1) :: later.2)

/-- The part of a text that fits into the room there is. -/
def fitting (room : Nat) (s : List Char) : List Char := (pieces room s).1

/-- A folded text is its pieces on lines of their own. -/
theorem fold_eq (room : Nat) (s : List Char) :
    fold room s = fitting room s ++ '\r' :: '\n' ::
      (pieces room s).2.flatMap fun piece => ' ' :: piece ++ ['\r', '\n'] := by
  induction s generalizing room with
  | nil => rfl
  | cons c s ih =>
    rw [fold, fitting, pieces]
    dsimp only
    split
    · rw [ih, fitting, List.cons_append]
    · rw [ih, fitting, List.nil_append, List.flatMap_cons]
      simp

/-- Nothing is lost between the pieces. -/
theorem fitting_append_flatten (room : Nat) (s : List Char) :
    fitting room s ++ (pieces room s).2.flatten = s := by
  induction s generalizing room with
  | nil => rfl
  | cons c s ih =>
    rw [fitting, pieces]
    dsimp only
    split
    · exact congrArg (c :: ·) (ih _)
    · rw [List.nil_append, List.flatten_cons, List.cons_append]
      exact congrArg (c :: ·) (ih _)

theorem length_encode_cons (c : Char) (s : List Char) :
    (encode (c :: s)).length = encodedSize c + (encode s).length := by
  rw [encode, List.flatMap_cons, List.length_append, encodedSize, encode]

/-- What fits is put down as it is before the rest is folded. -/
theorem pieces_append {a : List Char} {room : Nat} (h : (encode a).length ≤ room) (b : List Char) :
    pieces room (a ++ b) =
      (a ++ fitting (room - (encode a).length) b, (pieces (room - (encode a).length) b).2) := by
  induction a generalizing room with
  | nil => rfl
  | cons c a ih =>
    rw [length_encode_cons] at h ⊢
    have hc : encodedSize c ≤ room := by omega
    have hrest : (encode a).length ≤ room - encodedSize c := by omega
    have ha := ih hrest
    rw [Nat.sub_sub] at ha
    rw [List.cons_append, pieces]
    dsimp only
    rw [if_pos hc, ha, List.cons_append]

theorem length_encode_fitting_le (room : Nat) (s : List Char) :
    (encode (fitting room s)).length ≤ room := by
  induction s generalizing room with
  | nil => exact Nat.zero_le room
  | cons c s ih =>
    rw [fitting, pieces]
    dsimp only
    split
    · next hc =>
      have hrest := ih (room - encodedSize c)
      rw [length_encode_cons]
      rw [fitting] at hrest
      omega
    · exact Nat.zero_le room

/-- All of a text fits if and only if its bytes do. -/
theorem fitting_eq_iff {room : Nat} {s : List Char} :
    fitting room s = s ↔ (encode s).length ≤ room := by
  constructor
  · intro h
    have hle := length_encode_fitting_le room s
    rwa [h] at hle
  · intro h
    have happend := pieces_append h []
    rw [List.append_nil] at happend
    rw [fitting, happend]
    exact List.append_nil s

/-- A text without line feeds is read as one line for each of its pieces. -/
theorem lines_fold {s : List Char} (h : '\n' ∉ s) (room : Nat) (rest : List Char) :
    lines (fold room s ++ rest) =
      fitting room s :: ((pieces room s).2.map (' ' :: ·) ++ lines rest) := by
  have hall : '\n' ∉ fitting room s ++ (pieces room s).2.flatten := by
    rwa [fitting_append_flatten]
  rw [List.mem_append, not_or] at hall
  have hpieces : ∀ more : List (List Char), '\n' ∉ more.flatten →
      lines ((more.flatMap fun piece => ' ' :: piece ++ ['\r', '\n']) ++ rest) =
        more.map (' ' :: ·) ++ lines rest := by
    intro more hmore
    induction more with
    | nil => rfl
    | cons piece more ih =>
      rw [List.flatten_cons, List.mem_append, not_or] at hmore
      have hpiece : '\n' ∉ ' ' :: piece := by simpa using hmore.1
      rw [List.flatMap_cons, List.append_assoc, List.append_assoc]
      exact (lines_append_return hpiece _).trans (congrArg _ (ih hmore.2))
  rw [fold_eq, List.append_assoc, List.cons_append, List.cons_append, lines_append_return hall.1,
    hpieces _ hall.2]

/-- How much of a value fits on the line of its key. -/
def valueRoom (key : String) : Nat := lineLimit - ((encode key.toList).length + 2)

/-- An attribute is read as a line with its key, and a line for each further piece of its value. -/
theorem lines_printAttribute {key value : String} (hsize : (encode key.toList).length ≤ 70)
    (hkey : '\n' ∉ key.toList) (hvalue : '\n' ∉ value.toList) (rest : List Char) :
    lines (printAttribute key value ++ rest) =
      (key.toList ++ ':' :: ' ' :: fitting (valueRoom key) value.toList) ::
        ((pieces (valueRoom key) value.toList).2.map (' ' :: ·) ++ lines rest) := by
  have hlength : (encode (key.toList ++ [':', ' '])).length = (encode key.toList).length + 2 := by
    rw [encode, List.flatMap_append, List.length_append]
    rfl
  have hfits : (encode (key.toList ++ [':', ' '])).length ≤ lineLimit := by
    rw [hlength]
    exact Nat.add_le_add_right hsize 2
  have hpieces := pieces_append hfits value.toList
  rw [hlength, ← valueRoom, List.append_assoc, List.cons_append, List.singleton_append] at hpieces
  have hline : '\n' ∉ key.toList ++ ':' :: ' ' :: value.toList := by simp [hkey, hvalue]
  rw [printAttribute, lines_fold hline, fitting, hpieces]
  simp

end JarRemap.Manifest

/-!
## Manifests are read as they were written

An attribute is read back from all its lines, wherever it was folded. The name of a section is read
back from its first line alone: what stands on further lines goes on with an attribute, and the
section has none yet. So a manifest comes back from its bytes if and only if the name of each
section fits on one line.
-/

namespace JarRemap.Manifest

open Text

/-- A key that can stand at the start of an attribute. -/
@[mk_iff]
structure IsKey (key : String) : Prop where
  size : (encode key.toList).length ≤ 70
  start : key.toList.head? ≠ some ' '
  mark : ¬ [':', ' '] <:+: key.toList
  line : '\n' ∉ key.toList

instance (key : String) : Decidable (IsKey key) := decidable_of_iff' _ (isKey_iff key)

/-- Attributes that can be written. -/
@[mk_iff]
structure AreWritable (attributes : Attributes) : Prop where
  keys : ∀ e ∈ attributes.entries, IsKey e.1
  values : ∀ e ∈ attributes.entries, '\n' ∉ e.2.toList

instance (attributes : Attributes) : Decidable (AreWritable attributes) :=
  decidable_of_iff' _ (areWritable_iff attributes)

/-- A manifest that can be written: it has a version, and each of its texts stays on its line. -/
@[mk_iff]
structure Writable (m : Manifest) : Prop where
  version : m.main.contains versionKey = true
  main : AreWritable m.main
  names : ∀ name ∈ m.sections.keys, '\n' ∉ name.toList
  sections : ∀ attributes ∈ m.sections.values, AreWritable attributes

instance (m : Manifest) : Decidable m.Writable := decidable_of_iff' _ (writable_iff m)

/-- A line is cut at the first mark, which may begin inside of the key only if the key has it. -/
theorem cutAt?_append {key : List Char} (h : ¬ [':', ' '] <:+: key) (value : List Char) :
    cutAt? [':', ' '] (key ++ ':' :: ' ' :: value) = some (key, value) := by
  induction key with
  | nil => rfl
  | cons x key ih =>
    have hrest := ih fun hinfix => h (List.infix_cons hinfix)
    have hno : [':', ' '].isPrefixOf? (x :: (key ++ ':' :: ' ' :: value)) = none := by
      cases key with
      | nil => simp [List.isPrefixOf?]
      | cons y key =>
        by_cases hx : x = ':'
        · by_cases hy : y = ' '
          · subst hx hy
            exact absurd ⟨[], key, rfl⟩ h
          · simp [List.isPrefixOf?, Ne.symm hy]
        · simp [List.isPrefixOf?, Ne.symm hx]
    rw [List.cons_append, cutAt?, hno, hrest, Option.map_some]

namespace Reader

/-- What a line with a key does. -/
theorem line_eq {key : List Char} (hstart : key.head? ≠ some ' ') (hmark : ¬ [':', ' '] <:+: key)
    (r : Reader) (value : List Char) :
    r.line (key ++ ':' :: ' ' :: value) =
      if key = "Name".toList ∧ r.mainDone ∧ r.name = none ∧ r.attributes = [] then
        { r with name := some (String.ofList value) }
      else { r with attributes := (String.ofList key, value) :: r.attributes } := by
  have hcut := cutAt?_append hmark value
  cases key with
  | nil => rfl
  | cons x key =>
    have hx : x ≠ ' ' := by simpa using hstart
    rw [List.cons_append] at hcut ⊢
    unfold line
    split
    · next h => cases h
    · next h => exact absurd (List.cons.inj h).1 hx
    · rw [hcut]

/-- A line with a key begins an attribute, unless it begins the section itself. -/
theorem line_attribute {key : String} (hkey : IsKey key) (value : List Char) {r : Reader}
    (hr : ¬ (key = "Name" ∧ r.mainDone = true ∧ r.name = none ∧ r.attributes = [])) :
    r.line (key.toList ++ ':' :: ' ' :: value) =
      { r with attributes := (key, value) :: r.attributes } := by
  rw [← String.toList_inj] at hr
  rw [line_eq hkey.start hkey.mark, if_neg hr, String.ofList_toList]

/-- A line with the name of a section begins the section. -/
theorem line_name (value : List Char) {r : Reader} (hdone : r.mainDone = true)
    (hname : r.name = none) (hattributes : r.attributes = []) :
    r.line ("Name".toList ++ ':' :: ' ' :: value) =
      { r with name := some (String.ofList value) } := by
  rw [line_eq (by decide) (by decide), if_pos ⟨rfl, hdone, hname, hattributes⟩]

/-- Further lines go on with the last attribute. -/
theorem foldl_line_continued (more : List (List Char)) {r : Reader} {key : String}
    {value : List Char} {before : List (String × List Char)}
    (hr : r.attributes = (key, value) :: before) :
    (more.map (' ' :: ·)).foldl line r =
      { r with attributes := (key, value ++ more.flatten) :: before } := by
  induction more generalizing r value with
  | nil => simp [← hr]
  | cons piece more ih =>
    rw [List.map_cons, List.foldl_cons]
    have hline : r.line (' ' :: piece) =
        { r with attributes := (key, value ++ piece) :: before } := by
      simp [line, hr]
    rw [hline, ih rfl, List.flatten_cons, List.append_assoc]

/-- Further lines are passed over where there is no attribute. -/
theorem foldl_line_dropped (more : List (List Char)) {r : Reader} (hr : r.attributes = []) :
    (more.map (' ' :: ·)).foldl line r = r := by
  induction more with
  | nil => rfl
  | cons piece more ih =>
    have hline : r.line (' ' :: piece) = r := by simp [line, hr]
    rw [List.map_cons, List.foldl_cons, hline, ih]

variable {r : Reader}

/-- An attribute is read back from all its lines. -/
theorem foldl_line_printAttribute {key value : String} (hkey : IsKey key)
    (hvalue : '\n' ∉ value.toList) (hr : r.mainDone = false ∨ r.name ≠ none) (rest : List Char) :
    (lines (printAttribute key value ++ rest)).foldl line r =
      (lines rest).foldl line { r with attributes := (key, value.toList) :: r.attributes } := by
  have hno : ¬ (key = "Name" ∧ r.mainDone = true ∧ r.name = none ∧ r.attributes = []) := by
    rintro ⟨-, hdone, hname, -⟩
    rcases hr with hmain | hsection
    · rw [hmain] at hdone
      cases hdone
    · exact hsection hname
  rw [lines_printAttribute hkey.size hkey.line hvalue, List.foldl_cons, line_attribute hkey _ hno,
    List.foldl_append, foldl_line_continued _ rfl, fitting_append_flatten]

theorem foldl_line_printAttributes (attributes : List (String × String))
    (hkeys : ∀ e ∈ attributes, IsKey e.1) (hvalues : ∀ e ∈ attributes, '\n' ∉ e.2.toList)
    (hr : r.mainDone = false ∨ r.name ≠ none) (rest : List Char) :
    (lines (printAttributes attributes ++ rest)).foldl line r =
      (lines rest).foldl line
        { r with
          attributes := (attributes.map fun e => (e.1, e.2.toList)).reverse ++ r.attributes } := by
  induction attributes generalizing r with
  | nil => rfl
  | cons e attributes ih =>
    rw [List.forall_mem_cons] at hkeys hvalues
    rw [printAttributes, List.flatMap_cons, List.append_assoc,
      foldl_line_printAttribute hkeys.1 hvalues.1 hr, ← printAttributes,
      ih (r := { r with attributes := (e.1, e.2.toList) :: r.attributes }) hkeys.2 hvalues.2 hr]
    simp

/-- The name of a section as it is read: what of it fits on the first line. -/
def readName (name : String) : String := String.ofList (fitting (valueRoom "Name") name.toList)

/-- The name of a section is read from the first of its lines. -/
theorem foldl_line_printName {name : String} (hline : '\n' ∉ name.toList)
    (hdone : r.mainDone = true) (hname : r.name = none) (hattributes : r.attributes = [])
    (rest : List Char) :
    (lines (printAttribute "Name" name ++ rest)).foldl line r =
      (lines rest).foldl line { r with name := some (readName name) } := by
  rw [lines_printAttribute (by decide) (by decide) hline, List.foldl_cons,
    line_name _ hdone hname hattributes, List.foldl_append, foldl_line_dropped, readName]
  exact hattributes

/-- An empty line ends the section. -/
theorem foldl_line_return (rest : List Char) :
    (lines ('\r' :: '\n' :: rest)).foldl line r =
      (lines rest).foldl line { manifest := r.flush, mainDone := true } := by
  have hline : lines ([] ++ '\r' :: '\n' :: rest) = [] :: lines rest :=
    lines_append_return (by simp) rest
  rw [List.nil_append] at hline
  rw [hline]
  rfl

/-- The attributes that are read are those that were written. -/
theorem reverse_reverse_texts (attributes : List (String × String)) :
    ((attributes.map fun e => (e.1, e.2.toList)).reverse.reverse.map fun e =>
      (e.1, String.ofList e.2)) = attributes := by
  rw [List.reverse_reverse, List.map_map]
  simp [Function.comp_def]

end Reader

/-- Take a section over under the name that is read. -/
def takeSection (sections : OrderedMap String Attributes) (e : String × Attributes) :
    OrderedMap String Attributes :=
  (sections.insertNew (Reader.readName e.1) {}).modify (Reader.readName e.1)
    (·.insertAll e.2.entries)

/-- Sections are read one after the other. -/
theorem foldl_line_sections (sections : List (String × Attributes))
    (hnames : ∀ e ∈ sections, '\n' ∉ e.1.toList) (hwritable : ∀ e ∈ sections, AreWritable e.2)
    (m : Manifest) :
    (lines (sections.flatMap fun e =>
      printAttribute "Name" e.1 ++ printAttributes e.2.entries ++ ['\r', '\n'])).foldl Reader.line
        { manifest := m, mainDone := true } =
      { manifest := { m with sections := sections.foldl takeSection m.sections }
        mainDone := true } := by
  induction sections generalizing m with
  | nil => rfl
  | cons e sections ih =>
    rw [List.forall_mem_cons] at hnames hwritable
    have hflush : Reader.flush
        { manifest := m
          mainDone := true
          name := some (Reader.readName e.1)
          attributes := (e.2.entries.map fun e => (e.1, e.2.toList)).reverse ++ [] } =
        { m with sections := takeSection m.sections e } := by
      rw [List.append_nil, Reader.flush]
      dsimp only
      rw [Reader.reverse_reverse_texts, takeSection]
    rw [List.flatMap_cons, List.append_assoc, List.append_assoc,
      Reader.foldl_line_printName hnames.1 rfl rfl rfl,
      Reader.foldl_line_printAttributes _ hwritable.1.keys hwritable.1.values (.inr (by simp)),
      List.cons_append, List.singleton_append, Reader.foldl_line_return, hflush,
      ih hnames.2 hwritable.2, List.foldl_cons]

/-- The main attributes in the order in which they are written. -/
def written (m : Manifest) : List (String × String) :=
  (versionKey, (m.main.get? versionKey).getD "1.0") ::
    m.main.entries.filter fun e => e.1 ≠ versionKey

/-- The version is not lost when it is put first. -/
theorem written_perm {m : Manifest} (h : m.main.contains versionKey = true) :
    m.written.Perm m.main.entries := by
  rw [OrderedMap.contains_eq_isSome_get?] at h
  obtain ⟨version, hversion⟩ := Option.isSome_iff_exists.1 h
  have hwritten : m.written =
      (versionKey, version) :: m.main.entries.filter fun e => e.1 ≠ versionKey := by
    rw [written, hversion, Option.getD_some]
  have hnodup : m.written.Nodup := by
    rw [hwritten, List.nodup_cons]
    constructor
    · simp
    · exact (List.Nodup.of_map Prod.fst m.main.nodup).filter _
  apply (List.perm_ext_iff_of_nodup hnodup (List.Nodup.of_map Prod.fst m.main.nodup)).2
  rintro ⟨key, value⟩
  rw [hwritten, List.mem_cons, List.mem_filter, ← OrderedMap.get?_eq_some_iff]
  by_cases hkey : key = versionKey
  · subst hkey
    simp [hversion, eq_comm]
  · simp [hkey]

/-- What is read from a manifest that was written. -/
theorem parse_print {m : Manifest} (h : m.Writable) :
    parse m.print =
      { main := .ofList m.written, sections := m.sections.entries.foldl takeSection {} } := by
  have hmem : ∀ e ∈ m.written, e ∈ m.main.entries := fun e => (written_perm h.version).mem_iff.1
  have hprint : m.print = printAttributes m.written ++ '\r' :: '\n' ::
      m.sections.entries.flatMap fun e =>
        printAttribute "Name" e.1 ++ printAttributes e.2.entries ++ ['\r', '\n'] := by
    rw [print, written, printAttributes, printAttributes, List.flatMap_cons]
    simp
  have hnames : ∀ e ∈ m.sections.entries, '\n' ∉ e.1.toList := fun e he =>
    h.names e.1 (List.mem_map.2 ⟨e, he, rfl⟩)
  have hsections : ∀ e ∈ m.sections.entries, AreWritable e.2 := fun e he =>
    h.sections e.2 (List.mem_map.2 ⟨e, he, rfl⟩)
  rw [parse, hprint,
    Reader.foldl_line_printAttributes _ (fun e he => h.main.keys e (hmem e he))
      (fun e he => h.main.values e (hmem e he)) (.inl rfl),
    Reader.foldl_line_return, foldl_line_sections _ hnames hsections]
  have hmain : Reader.flush
      { attributes := (m.written.map fun e => (e.1, e.2.toList)).reverse ++ [] } =
      { main := .ofList m.written } := by
    rw [List.append_nil, Reader.flush]
    dsimp only
    rw [Reader.reverse_reverse_texts]
    rfl
  rw [hmain]
  rfl

theorem mem_keys_takeSection {sections : OrderedMap String Attributes} {e : String × Attributes}
    {name : String} (h : name ∈ (takeSection sections e).keys) :
    name ∈ sections.keys ∨ name = Reader.readName e.1 := by
  rw [takeSection, OrderedMap.keys_modify, OrderedMap.keys_insertNew] at h
  split at h
  · exact .inl h
  · simpa using h

/-- The names that are read stand on one line each. -/
theorem length_encode_le_of_mem_keys (sections : List (String × Attributes))
    {taken : OrderedMap String Attributes}
    (htaken : ∀ name ∈ taken.keys, (encode name.toList).length ≤ valueRoom "Name") :
    ∀ name ∈ (sections.foldl takeSection taken).keys,
      (encode name.toList).length ≤ valueRoom "Name" := by
  induction sections generalizing taken with
  | nil => exact htaken
  | cons e sections ih =>
    rw [List.foldl_cons]
    apply ih
    intro name hname
    rcases mem_keys_takeSection hname with hmem | rfl
    · exact htaken name hmem
    · rw [Reader.readName, String.toList_ofList]
      exact length_encode_fitting_le _ _

/-- A section with a new name that is read in full is taken over as it is. -/
theorem entries_takeSection {sections : OrderedMap String Attributes} {e : String × Attributes}
    (hnew : sections.contains e.1 = false) (hname : Reader.readName e.1 = e.1) :
    (takeSection sections e).entries = sections.entries ++ [e] := by
  have hold : ∀ other ∈ sections.entries, other.1 ≠ e.1 := by
    simpa [OrderedMap.contains] using hnew
  have hkeep : (sections.entries.map fun other =>
      if other.1 = e.1 then (other.1, other.2.insertAll e.2.entries) else other) =
      sections.entries :=
    (List.map_congr_left fun other hother => if_neg (hold other hother)).trans (List.map_id _)
  have hall : OrderedMap.insertAll {} e.2.entries = e.2 := OrderedMap.ofList_entries e.2
  rw [takeSection, hname]
  simp [OrderedMap.modify, OrderedMap.insertNew, hnew, hkeep, hall]

/-- Sections whose names are read in full are taken over as they are. -/
theorem entries_foldl_takeSection {sections : List (String × Attributes)}
    {taken : OrderedMap String Attributes}
    (hnodup : ((taken.entries ++ sections).map Prod.fst).Nodup)
    (hnames : ∀ e ∈ sections, Reader.readName e.1 = e.1) :
    (sections.foldl takeSection taken).entries = taken.entries ++ sections := by
  induction sections generalizing taken with
  | nil => exact (List.append_nil _).symm
  | cons e sections ih =>
    rw [List.forall_mem_cons] at hnames
    have hnew : taken.contains e.1 = false := by
      rw [List.map_append, List.nodup_append] at hnodup
      simp only [OrderedMap.contains, List.any_eq_false, decide_eq_true_eq]
      intro other hother
      exact hnodup.2.2 _ (List.mem_map.2 ⟨other, hother, rfl⟩) _ List.mem_cons_self
    have htaken := entries_takeSection hnew hnames.1
    rw [List.append_cons, ← htaken] at hnodup
    rw [List.foldl_cons, ih hnodup hnames.2, htaken, List.append_assoc, List.singleton_append]

variable {α : Type} {same : α → α → Bool} {a b : OrderedMap String α}

/-- Tables with the same entries have the same values. -/
theorem sameEntries_of_perm (hsame : ∀ value, same value value = true)
    (h : a.entries.Perm b.entries) : sameEntries same a b = true := by
  rw [sameEntries, Bool.and_eq_true, beq_iff_eq, List.all_eq_true]
  constructor
  · exact h.length_eq
  · rintro ⟨key, value⟩ he
    have hget : b.get? key = some value := OrderedMap.get?_eq_some_iff.2 (h.mem_iff.1 he)
    simp [hget, hsame]

/-- Tables with the same values have the same keys. -/
theorem keys_perm_of_sameEntries (h : sameEntries same a b = true) : a.keys.Perm b.keys := by
  rw [sameEntries, Bool.and_eq_true, beq_iff_eq, List.all_eq_true] at h
  have hsubset : a.keys ⊆ b.keys := by
    intro key hkey
    obtain ⟨e, he, rfl⟩ := List.mem_map.1 hkey
    have hfound := h.2 e he
    cases hget : b.get? e.1 with
    | none => simp [hget] at hfound
    | some value => exact List.mem_map.2 ⟨_, OrderedMap.get?_eq_some_iff.1 hget, rfl⟩
  apply (List.subperm_of_subset a.nodup hsubset).perm_of_length_le
  simp only [OrderedMap.keys, List.length_map]
  exact Nat.le_of_eq h.1.symm

/-- A manifest that can be written comes back from its bytes, up to order, if and only if the name
of each section fits on the line where it begins. -/
theorem decoded_same_iff {m : Manifest} (h : m.Writable) :
    (parse (decodeLossy m.toBytes)).same m = true ↔
      ∀ name ∈ m.sections.keys, (encode name.toList).length ≤ 66 := by
  have hroom : valueRoom "Name" = 66 := by decide
  rw [toBytes, decodeLossy_encode, parse_print h, same, Bool.and_eq_true]
  constructor
  · -- equal manifests have equal names, and no name that is read is longer than its line
    rintro ⟨-, hsections⟩ name hname
    have hnone : ∀ name ∈ (∅ : OrderedMap String Attributes).keys,
        (encode name.toList).length ≤ valueRoom "Name" := fun _ h => nomatch h
    rw [← hroom]
    exact length_encode_le_of_mem_keys _ hnone name
      ((keys_perm_of_sameEntries hsections).mem_iff.2 hname)
  · intro hfits
    have hmain : (OrderedMap.ofList m.written).entries.Perm m.main.entries := by
      have hperm := written_perm h.version
      have hnodup : (m.written.map Prod.fst).Nodup := (hperm.map _).nodup_iff.2 m.main.nodup
      have hentries : (OrderedMap.ofList m.written).entries = m.written :=
        OrderedMap.entries_insertAll hnodup
      rwa [hentries]
    have hnames : ∀ e ∈ m.sections.entries, Reader.readName e.1 = e.1 := by
      intro e he
      have hname := hfits e.1 (List.mem_map.2 ⟨e, he, rfl⟩)
      rw [Reader.readName, hroom, fitting_eq_iff.2 hname, String.ofList_toList]
    have hsections : (m.sections.entries.foldl takeSection {}).entries = m.sections.entries :=
      entries_foldl_takeSection m.sections.nodup hnames
    constructor
    · exact sameEntries_of_perm (fun value => beq_self_eq_true value) hmain
    · apply sameEntries_of_perm
      · intro attributes
        exact sameEntries_of_perm (fun value => beq_self_eq_true value) (.refl _)
      · rw [hsections]

/-- An attribute on two lines, and a section whose name just fits. -/
def fullLines : Manifest where
  main := .ofList [("Class-Path", String.ofList (List.replicate 40 'é')), (versionKey, "1.0")]
  sections := .ofList [(String.ofList (List.replicate 66 'a'), .ofList [("Name", "b: c")])]

theorem decoded_same_iff_fullLines :
    fullLines.Writable ∧ (parse (decodeLossy fullLines.toBytes)).same fullLines = true := by
  have hwritable : fullLines.Writable := by decide +kernel
  exact ⟨hwritable, (decoded_same_iff hwritable).2 (by decide +kernel)⟩

/-- Two sections whose names differ behind the end of the line. -/
def overlongNames : Manifest where
  main := .ofList [(versionKey, "1.0")]
  sections := .ofList
    [(String.ofList (List.replicate 66 'a' ++ ['b']), .ofList [("Sealed", "true")]),
      (String.ofList (List.replicate 66 'a' ++ ['c']), .ofList [("Sealed", "false")])]

/-- The two sections are read as one. -/
theorem decoded_overlongNames :
    overlongNames.Writable ∧
      (parse (decodeLossy overlongNames.toBytes)).same overlongNames = false ∧
      (parse (decodeLossy overlongNames.toBytes)).sections.keys =
        [String.ofList (List.replicate 66 'a')] := by
  decide +kernel

end JarRemap.Manifest
