import JarRemap.Format.Tiny
import JarRemap.Proofs.Format.TinyTree.Document
import JarRemap.Proofs.Format.WordLine
import JarRemap.Proofs.Format.TinyTree.RoundTrip

/-!
# Flat and nested tiny documents

One listing of classes and members, its two texts, and what is read back from them.
-/

/-!
## Listings in the tiny formats

Classes with their fields and methods, each with a name or none in every namespace, and two ways to
write them down: flat, where every member repeats the class that it is of, and nested, where the
members stand below their class. Only a class has to have a name in the first namespace.
-/

namespace JarRemap.Format.Tiny

open TinyTree (Column Name Row behindTabs nameColumn)

section Listings

/-- The names in the namespaces behind the first one. At the end missing names may be left out. -/
structure Renames (width : Nat) where
  names : List (Option (Name false))
  length_le : names.length ≤ width

/-- A field or a method, with a name or none in the first namespace. -/
inductive Member (width : Nat) where
  | field (desc : Column) (name : Option (Name false)) (renames : Renames width)
  | method (desc : Column) (name : Option (Name false)) (renames : Renames width)

structure Class (width : Nat) where
  name : Name false
  renames : Renames width
  members : List (Member width)

structure Listing where
  key : Column
  others : List Column
  classes : List (Class others.length)

variable {width : Nat}

/-- A name or none for each namespace. -/
def Renames.texts (name : Option (Name false)) (r : Renames width) : List (Option String) :=
  (name :: r.names ++ List.replicate (width - r.names.length) none).map (Option.map Name.text)

def Member.record (owner : String) : Member width → Record
  | .field desc name renames => ⟨.field owner (some desc.text), renames.texts name, none⟩
  | .method desc name renames => ⟨.method owner (some desc.text), renames.texts name, none⟩

/-- A class and its members. -/
def Class.records (c : Class width) : List Record :=
  ⟨.type, c.renames.texts (some c.name), none⟩ :: c.members.map (Member.record c.name.text)

/-- What a listing says. -/
def Listing.source (listing : Listing) : Source :=
  let others := listing.others.map Column.text
  ⟨listing.key.text, others, listing.key.text :: others, listing.classes.flatMap Class.records⟩

end Listings

variable {width : Nat}

def Renames.columns (name : Option (Name false)) (r : Renames width) : List Column :=
  (name :: r.names).map nameColumn

section Flat

/-- A line that begins with its kind. -/
def line (kind : String) (columns : List Column) : List Char := kind.toList ++ behindTabs columns

def Member.flatLine (owner : Name false) : Member width → List Char
  | .field desc name renames => line "FIELD" (owner.column :: desc :: renames.columns name)
  | .method desc name renames => line "METHOD" (owner.column :: desc :: renames.columns name)

def Class.flatLines (c : Class width) : List (List Char) :=
  line "CLASS" (c.renames.columns (some c.name)) :: c.members.map (Member.flatLine c.name)

/-- The flat text of a listing. -/
def Listing.flat (listing : Listing) : List Char :=
  unlines (line "v1" (listing.key :: listing.others) :: listing.classes.flatMap Class.flatLines)

end Flat

section Nested

theorem isBlank_class : Text.isBlank 'c' = false := by decide

theorem isBlank_field : Text.isBlank 'f' = false := by decide

theorem isBlank_method : Text.isBlank 'm' = false := by decide

def Member.row : Member width → Row
  | .field desc name renames => ⟨1, 'f', desc :: renames.columns name, isBlank_field⟩
  | .method desc name renames => ⟨1, 'm', desc :: renames.columns name, isBlank_method⟩

def Class.row (c : Class width) : Row := ⟨0, 'c', c.renames.columns (some c.name), isBlank_class⟩

def Class.rows (c : Class width) : List Row := c.row :: c.members.map Member.row

/-- The nested text of a listing, without properties. -/
def Listing.nested (listing : Listing) : List Char :=
  unlines (line "tiny\t2\t0" (listing.key :: listing.others) ::
    (listing.classes.flatMap Class.rows).map Row.text)

end Nested

example :
    let key : Column := ⟨"official", by simp [TinyTree.isBreak]⟩
    let other : Column := ⟨"named", by simp [TinyTree.isBreak]⟩
    let a : Name false := ⟨"a", by decide, by simp [TinyTree.isBreak]⟩
    let field : Member 1 := .field ⟨"I", by simp [TinyTree.isBreak]⟩ none ⟨[some a], by decide⟩
    let listing : Listing := ⟨key, [other], [⟨a, ⟨[], by decide⟩, [field]⟩]⟩
    listing.flat = "v1\tofficial\tnamed\nCLASS\ta\nFIELD\ta\tI\t\ta\n".toList ∧
      listing.nested = "tiny\t2\t0\tofficial\tnamed\nc\ta\n\tf\tI\t\ta\n".toList := by
  decide

end JarRemap.Format.Tiny

/-!
## The tiny formats say the same

A listing that is written flat or nested is read back from both texts as just its records. The flat
format takes the class of a member from its line, the nested one from the record that is open around
it; both pad the names that were left out.
-/

namespace JarRemap.Format.Tiny

open TinyTree (Column Name Row State At behindTabs nameColumn)

variable {width : Nat}

section Names

theorem nameOrNone_nameColumn (name : Option (Name false)) :
    nameOrNone (nameColumn name).text.toList = name.map Name.text :=
  TinyTree.readName_nameColumn (s := .of false 0 [] []) rfl name

/-- The columns of names as they are read. -/
def Renames.raw (name : Option (Name false)) (r : Renames width) : List (List Char) :=
  (r.columns name).map fun c => c.text.toList

/-- Names are read back from their columns, and those that were left out are padded. -/
theorem fit_raw (element : Element) (name : Option (Name false)) (r : Renames width) :
    Record.fit (width + 1) ⟨element, (r.raw name).map nameOrNone, none⟩ =
      ⟨element, r.texts name, none⟩ := by
  have hnames : (r.raw name).map nameOrNone = (name :: r.names).map (Option.map Name.text) := by
    rw [Renames.raw, Renames.columns, List.map_map, List.map_map]
    exact List.map_congr_left fun name _ => nameOrNone_nameColumn name
  have hlength : ((name :: r.names).map (Option.map Name.text)).length ≤ width + 1 := by
    rw [List.length_map]
    exact Nat.succ_le_succ r.length_le
  rw [hnames, Record.fit, List.take_of_length_le hlength]
  simp [Renames.texts]

/-- The record of a member as it is read, before it is padded. -/
def Member.raw (owner : String) : Member width → Record
  | .field desc name renames => fieldRecord owner (some desc.text.toList) (renames.raw name)
  | .method desc name renames => methodRecord owner (some desc.text.toList) (renames.raw name)

theorem Member.fit_raw (owner : String) (m : Member width) :
    (m.raw owner).fit (width + 1) = m.record owner := by
  cases m with
  | field desc name renames =>
    rw [record, ← Tiny.fit_raw, raw, fieldRecord, Option.map_some, String.ofList_toList]
  | method desc name renames =>
    rw [record, ← Tiny.fit_raw, raw, methodRecord, Option.map_some, String.ofList_toList]

def Class.raw (c : Class width) : List Record :=
  typeRecord (c.renames.raw (some c.name)) :: c.members.map (Member.raw c.name.text)

theorem Class.fit_raw (c : Class width) : c.raw.map (Record.fit (width + 1)) = c.records := by
  rw [raw, records, List.map_cons, typeRecord, Tiny.fit_raw, List.map_map]
  exact congrArg _ (List.map_congr_left fun m _ => m.fit_raw c.name.text)

end Names

theorem not_mem_line {kind : String} {x : Char} (hx : x = '\n' ∨ x = '\r')
    (hkind : x ∉ kind.toList) (columns : List Column) : x ∉ line kind columns := by
  have hbreak : TinyTree.isBreak x = true ∧ x ≠ '\t' := by rcases hx with rfl | rfl <;> decide
  rw [line, List.mem_append, not_or]
  exact ⟨hkind, TinyTree.not_mem_behindTabs hbreak.1 hbreak.2 columns⟩

theorem isLine_line (kind : String) (hkind : '\n' ∉ kind.toList ∧ '\r' ∉ kind.toList)
    (columns : List Column) : IsLine (line kind columns) :=
  ⟨not_mem_line (.inl rfl) hkind.1 columns, fun hlast =>
    not_mem_line (.inr rfl) hkind.2 columns (List.mem_of_getLast? hlast)⟩

section Flat

/-- A line is split into its kind and its columns. -/
theorem splitOn_line (kind : String) (h : '\t' ∉ kind.toList) (columns : List Column) :
    Text.splitOn '\t' (line kind columns) =
      kind.toList :: columns.map fun c => c.text.toList :=
  TinyTree.splitOn_behindTabs kind.toList h columns

theorem header_line (key : Column) (others : List Column) :
    header (some (line "v1" (key :: others))) = .ok (key.text, others.map Column.text) := by
  have hstrip : Text.stripStart? "v1\t".toList (line "v1" (key :: others)) =
      some (key.text.toList ++ behindTabs others) := rfl
  have hkey : '\t' ∉ key.text.toList := key.not_mem_text rfl
  simp only [header, hstrip, TinyTree.splitOn_behindTabs _ hkey, List.map_map]
  simp [Function.comp_def]

theorem Class.step_line (c : Class width) :
    step () (line "CLASS" (c.renames.columns (some c.name))) =
      .ok ((), [typeRecord (c.renames.raw (some c.name))]) := by
  have hsplit := splitOn_line "CLASS" (by decide) (c.renames.columns (some c.name))
  simp only [step, hsplit]
  rfl

theorem Member.step_line (owner : Name false) (m : Member width) :
    step () (m.flatLine owner) = .ok ((), [m.raw owner.text]) := by
  have howner : String.ofList owner.column.text.toList = owner.text := String.ofList_toList
  rw [← howner]
  cases m with
  | field desc name renames =>
    have hsplit := splitOn_line "FIELD" (by decide)
      (owner.column :: desc :: renames.columns name)
    simp only [flatLine, step, hsplit]
    rfl
  | method desc name renames =>
    have hsplit := splitOn_line "METHOD" (by decide)
      (owner.column :: desc :: renames.columns name)
    simp only [flatLine, step, hsplit]
    rfl

theorem Class.reads_flat (c : Class width) :
    Reads step (fun _ => True) c.flatLines c.raw fun _ => True := by
  have hclass : Reads step (fun _ => True) [line "CLASS" (c.renames.columns (some c.name))]
      [typeRecord (c.renames.raw (some c.name))] fun _ => True :=
    reads_line fun _ _ => ⟨(), c.step_line, trivial⟩
  exact hclass.append (reads_map fun m _ _ _ => ⟨(), m.step_line c.name, trivial⟩)

theorem isLine_flatLines (c : Class width) : ∀ line ∈ c.flatLines, IsLine line := by
  refine List.forall_mem_cons.2 ⟨isLine_line _ (by decide) _, List.forall_mem_map.2 fun m _ => ?_⟩
  cases m <;> exact isLine_line _ (by decide) _

end Flat

section Nested

variable (records before after : List Record) (parent : Record)

theorem Class.read_row (c : Class width) :
    c.row.read (.of false (width + 1) records []) =
      .ok ((State.of false (width + 1) records []).push
        (typeRecord (c.renames.raw (some c.name)))) := rfl

theorem Member.read_row {owner : String} (m : Member width) (helement : parent.element = .type)
    (hkey : parent.key? = some owner) :
    let s := State.of false (width + 1) (before ++ parent :: after) [.record before.length]
    m.row.read s = .ok (s.push (m.raw owner)) := by
  intro s
  have hbelow : ∀ row : Row, row.kind ≠ 'c' → row.read s = TinyTree.entry s
      (String.ofList [row.kind]) (row.columns.map fun c => c.text.toList) (some parent) :=
    fun row hkind => TinyTree.read_below before after [] hkind
  cases m with
  | field desc name renames =>
    rw [hbelow _ (show 'f' ≠ 'c' by decide)]
    simp only [row, Renames.columns, List.map_cons, TinyTree.entry, helement, hkey,
      Option.map_some, Option.bind_some]
    rfl
  | method desc name renames =>
    rw [hbelow _ (show 'm' ≠ 'c' by decide)]
    simp only [row, Renames.columns, List.map_cons, TinyTree.entry, helement, hkey,
      Option.map_some, Option.bind_some]
    rfl

/-- A member adds its record behind those of its class. -/
theorem leads_member {owner : String} (m : Member width) (helement : parent.element = .type)
    (hkey : parent.key? = some owner) :
    Leads TinyTree.step
      (At false (width + 1) (before ++ parent :: after) [.record before.length]) [m.row.text]
      (At false (width + 1) (before ++ parent :: (after ++ [m.record owner]))
        [.record before.length]) := by
  have hread := m.read_row before after parent helement hkey
  have hdepth : m.row.depth = [TinyTree.Open.record before.length].length := by cases m <;> rfl
  dsimp only at hread
  rw [TinyTree.push_of, m.fit_raw, List.append_assoc, List.cons_append] at hread
  exact (TinyTree.leads_row _ hdepth hread (TinyTree.at_of _ _ _ _)).weaken fun _ => At.outer _

theorem leads_members {owner : String} (members : List (Member width))
    (helement : parent.element = .type) (hkey : parent.key? = some owner) :
    Leads TinyTree.step
      (At false (width + 1) (before ++ parent :: after) [.record before.length])
      ((members.map Member.row).map Row.text)
      (At false (width + 1) (before ++ parent :: (after ++ members.map (Member.record owner)))
        [.record before.length]) := by
  induction members generalizing after with
  | nil => simpa using leads_nil fun _ => id
  | cons m members ih =>
    have hmember := leads_member before after parent m helement hkey
    have hmembers := ih (after ++ [m.record owner])
    rw [List.append_assoc, List.singleton_append] at hmembers
    exact hmember.append hmembers

/-- A class closes the one before it, and adds its records. -/
theorem leads_class (c : Class width) :
    Leads TinyTree.step (At false (width + 1) records []) (c.rows.map Row.text)
      (At false (width + 1) (records ++ c.records) []) := by
  have hread := c.read_row records
  rw [TinyTree.push_of, typeRecord, fit_raw] at hread
  have hrow := TinyTree.leads_row c.row rfl hread (TinyTree.at_of _ _ _ _)
  have hkey : Record.key? ⟨.type, c.renames.texts (some c.name), none⟩ = some c.name.text := rfl
  have hmembers := leads_members records [] _ c.members rfl hkey
  exact (hrow.append hmembers).weaken fun _ => At.outer []

theorem leads_classes (classes : List (Class width)) :
    Leads TinyTree.step (At false (width + 1) records [])
      ((classes.flatMap Class.rows).map Row.text)
      (At false (width + 1) (records ++ classes.flatMap Class.records) []) := by
  induction classes generalizing records with
  | nil => simpa using leads_nil fun _ => id
  | cons c classes ih =>
    rw [List.flatMap_cons, List.map_append, List.flatMap_cons, ← List.append_assoc]
    exact (leads_class records c).append (ih _)

/-- The rows begin with a class, which is no property. -/
theorem not_isProperty_head? (classes : List (Class width)) :
    ∀ line ∈ ((classes.flatMap Class.rows).map Row.text).head?,
      TinyTree.isProperty line = false := by
  intro line hline
  cases classes with
  | nil => cases hline
  | cons c classes =>
    obtain rfl := Option.some.inj hline
    rfl

end Nested

variable (listing : Listing)

theorem Listing.pushAll_raw :
    (Source.start listing.key.text (listing.others.map Column.text)).pushAll
        (listing.classes.flatMap Class.raw) = listing.source := by
  have hrecords : (listing.classes.flatMap Class.raw).map (Record.fit (listing.others.length + 1)) =
      listing.classes.flatMap Class.records := by
    rw [List.map_flatMap]
    exact List.flatMap_congr fun c _ => c.fit_raw
  simp [Source.pushAll, Source.start, Source.width, source, hrecords]

theorem Listing.parse_flat : Tiny.parse listing.flat = .ok listing.source := by
  have hread : Reads step (fun _ => True) (listing.classes.flatMap Class.flatLines)
      (listing.classes.flatMap Class.raw) fun _ => True := reads_flatMap fun c _ => c.reads_flat
  have hlines := List.forall_mem_flatMap.2 fun c (_ : c ∈ listing.classes) => isLine_flatLines c
  have hfirst := isLine_line "v1" (by decide) (listing.key :: listing.others)
  obtain ⟨below, hnumbered, hbelow⟩ := exists_numberedLines_cons hfirst
    (unlines (listing.classes.flatMap Class.flatLines))
  rw [lines_unlines hlines] at hbelow
  obtain ⟨_, hreading, -⟩ := hread () trivial
  rw [← hbelow] at hreading
  have htext : listing.flat = line "v1" (listing.key :: listing.others) ++
      '\n' :: unlines (listing.classes.flatMap Class.flatLines) := by
    simp [flat, unlines]
  rw [parse, htext, hnumbered]
  simp only [List.head?_cons, Option.map_some, header_line, List.tail_cons, Except.mapError, bind,
    Except.bind, hreading.readLines_eq]
  exact congrArg Except.ok listing.pushAll_raw

theorem Listing.lines_nested :
    Text.lines listing.nested = line "tiny\t2\t0" (listing.key :: listing.others) ::
      (listing.classes.flatMap Class.rows).map Row.text := by
  refine lines_unlines (List.forall_mem_cons.2 ⟨isLine_line _ (by decide) _, ?_⟩)
  refine List.forall_mem_map.2 fun row _ => ⟨row.not_mem_text (.inl rfl), fun hlast => ?_⟩
  exact row.not_mem_text (.inr rfl) (List.mem_of_getLast? hlast)

theorem Listing.parse_nested : TinyTree.parse listing.nested = .ok listing.source := by
  obtain ⟨s, hs, hat⟩ := leads_classes [] listing.classes _ (TinyTree.at_of false _ [] [])
  have hread : ((listing.classes.flatMap Class.rows).map Row.text).foldlM TinyTree.step
      ⟨false, (listing.others.map Column.text).length + 1, #[], []⟩ = .ok s := by
    rw [List.length_map]
    exact hs
  have hlines : Text.lines listing.nested = line "tiny\t2\t0" (listing.key :: listing.others) ::
      ([] ++ (listing.classes.flatMap Class.rows).map Row.text) := listing.lines_nested
  rw [TinyTree.parse_of_lines hlines
    (TinyTree.header_behindTabs listing.key listing.others) (by simp)
    (not_isProperty_head? listing.classes) hread, hat.records]
  rfl

/-- A listing is read from its flat text and from its nested one as the same source: its own records
in order, with a name or none in every namespace. -/
theorem parse_flat_and_nested :
    Tiny.parse listing.flat = .ok listing.source ∧
      TinyTree.parse listing.nested = .ok listing.source :=
  ⟨listing.parse_flat, listing.parse_nested⟩

end JarRemap.Format.Tiny
