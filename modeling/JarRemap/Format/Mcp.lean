import JarRemap.Text.Blank
import JarRemap.Text.Cut
import JarRemap.Tree
import JarRemap.Format.Table

/-!
# Exported name tables

Readable names for searge symbols, as tables in three layouts. The file name says what a table
lists. All but the middle layout name searge symbols alone, so these are looked up in the tree that
is being built; only rows of the side that is read count.
-/

namespace JarRemap.Format.Mcp

open Table (Cells)

/-- The part of a path that names the file. -/
def fileName (path : String) : String :=
  String.ofList (Text.behindLast (fun c => c = '/' || c = '\\') path.toList)

/-- A row that names a field or a method. -/
structure MemberRow where
  searge : List Char
  name : List Char
  side : Nat
  comment : List Char

/-- A row that names a parameter. -/
structure ParamRow where
  param : List Char
  name : List Char
  side : Nat

/-- A row that names a class by its obfuscated name. -/
structure OldTypeRow where
  name : List Char
  notch : List Char
  package : List Char
  side : Nat

/-- A row that names a member by its obfuscated name. -/
structure OldMemberRow where
  searge : List Char
  name : List Char
  notch : List Char
  desc : List Char
  owner : List Char
  side : Nat

def MemberRow.read? (cells : Cells) : Option MemberRow := do
  return ⟨← cells.text? "searge", ← cells.text? "name", ← cells.number? "side",
    ← cells.textOrEmpty? "desc"⟩

def ParamRow.read? (cells : Cells) : Option ParamRow := do
  return ⟨← cells.text? "param", ← cells.text? "name", ← cells.number? "side"⟩

/-- Read a row that names a class by its obfuscated name. -/
def OldTypeRow.read? (cells : Cells) : Option OldTypeRow := do
  return ⟨← cells.text? "name", ← cells.text? "notch", ← cells.textOrEmpty? "package",
    ← cells.number? "side"⟩

/-- Read a row that names a member by its obfuscated name. -/
def OldMemberRow.read? (cells : Cells) : Option OldMemberRow := do
  return ⟨← cells.text? "searge", ← cells.text? "name", ← cells.text? "notch",
    ← cells.text? "notchsig", ← cells.text? "classnotch", ← cells.number? "side"⟩

/-- The tree that searge names are looked up in, and its column of them. -/
structure Lookup where
  tree : MappingTree
  column : Nat

namespace Lookup

/-- Look names up in a tree, which needs a column of searge names. -/
def ofTree (format : Format) (tree : MappingTree) : Except FormatError Lookup :=
  match tree.column? Namespace.searge with
  | some column => .ok ⟨tree, column⟩
  | none => .error (.missingNamespace format Namespace.searge)

/-- A source of readable names for the tree. They come from the searge names. -/
def source (l : Lookup) (records : List Record) : Source :=
  let start := Source.start (l.tree.namespaces.headD Namespace.official) [Namespace.mcp]
  { start with lineage := [Namespace.searge, Namespace.mcp] }.pushAll records

/-- The methods whose searge name satisfies a test, with their classes. -/
def methods (l : Lookup) (test : String → Bool) : List (ClassMapping × MethodMapping) :=
  l.tree.classes.values.flatMap fun c =>
    (c.methods.filter fun m => ((m.names.get? l.column).map test).getD false).map (c, ·)

def fields (l : Lookup) (searge : String) : List (ClassMapping × FieldMapping) :=
  l.tree.classes.values.flatMap fun c =>
    (c.fields.filter fun f => f.names.get? l.column = some searge).map (c, ·)

/-- Name every member of a searge name. -/
def name (l : Lookup) (isMethod : Bool) (searge name : List Char) (comment : Option String) :
    List Record :=
  let searge := String.ofList searge
  if isMethod then
    (l.methods (· = searge)).map fun (c, m) =>
      ⟨.method c.names.source m.desc, [some m.names.source, nameOrNone name], comment⟩
  else
    (l.fields searge).map fun (c, f) =>
      ⟨.field c.names.source f.desc, [some f.names.source, nameOrNone name], comment⟩

/-- The number in a searge method name `func_number_suffix`. -/
def methodNumber? (searge : List Char) : Option (List Char) := do
  let rest ← Text.stripStart? "func_".toList searge
  ((Text.splitOn '_' rest).head?).filter fun number => !number.isEmpty

/-- Drop every `p_` at the start. -/
def dropMarks : List Char → List Char
  | 'p' :: '_' :: rest => dropMarks rest
  | s => s

/-- Name the parameter `p_number_index_` of every method with the number. Parameters of
constructors, whose number begins with an `i`, and other names are passed over. -/
def nameParam (l : Lookup) (param name : List Char) : List Record :=
  match Text.splitOn '_' (dropMarks param) with
  | number :: word :: _ =>
      match Text.index? word with
      | some index =>
          if number.head? = some 'i' then []
          else
            (l.methods fun searge => methodNumber? searge.toList = some number).map fun (c, m) =>
              ⟨.param c.names.source m.names.source m.desc index, [none, nameOrNone name], none⟩
      | none => []
  | _ => []

end Lookup

/-- Read a table of the current layout. -/
def parse (file : String) (side : Side) (tree : MappingTree) (text : List Char) :
    Except FormatError Source := do
  let lookup ← Lookup.ofTree .mcp tree
  let members (isMethod : Bool) : Except FormatError Source := do
    let rows ← Table.read .mcp MemberRow.read? text
    let rows := rows.filter fun row => side.accepts row.side
    return lookup.source <| rows.flatMap fun row =>
      lookup.name isMethod row.searge row.name (nameOrNone row.comment)
  match fileName file with
  | "methods.csv" => members true
  | "fields.csv" => members false
  | "params.csv" => do
      let rows ← Table.read .mcp ParamRow.read? text
      let rows := rows.filter fun row => side.accepts row.side
      return lookup.source <| rows.flatMap fun row => lookup.nameParam row.param row.name
  | _ => .error (.unsupportedFile .mcp file)

/-- The name of a class in its package. -/
def OldTypeRow.qualified (row : OldTypeRow) : List Char :=
  if row.package.isEmpty then row.name
  else (row.package.reverse.dropWhile (· = '/')).reverse ++ '/' :: row.name

/-- The record of a class, whose searge name is readable. -/
def OldTypeRow.record (row : OldTypeRow) : Record :=
  let name := nameOrNone row.qualified
  ⟨.type, [nameOrNone row.notch, name, name], none⟩

def OldMemberRow.record (isMethod : Bool) (row : OldMemberRow) : Record :=
  let owner := String.ofList row.owner
  let desc := nameOrNone row.desc
  ⟨if isMethod then .method owner desc else .field owner desc,
    [nameOrNone row.notch, nameOrNone row.searge, nameOrNone row.name], none⟩

/-- Read a table of the layout that gives the obfuscated names as well. -/
def parseOld (file : String) (side : Side) (text : List Char) : Except FormatError Source := do
  let start := Source.start Namespace.official [Namespace.searge, Namespace.mcp]
  let members (isMethod : Bool) : Except FormatError Source := do
    let rows ← Table.read .oldMcp OldMemberRow.read? text
    let rows := rows.filter fun row => side.accepts row.side
    return start.pushAll (rows.map (·.record isMethod))
  match fileName file with
  | "classes.csv" => do
      let rows ← Table.read .oldMcp OldTypeRow.read? text
      return start.pushAll ((rows.filter fun row => side.accepts row.side).map (·.record))
  | "methods.csv" => members true
  | "fields.csv" => members false
  | _ => .error (.unsupportedFile .oldMcp file)

/-- A field of a row, if there is something in it; an asterisk is nothing. -/
def cell? (row : List (List Char)) (i : Nat) : Option (List Char) :=
  (row[i]?.map Text.trim).filter fun s => !s.isEmpty && s ≠ ['*']

/-- The searge name of a row, which has a column for each side. -/
def seargeCell? (side : Side) (row : List (List Char)) : Option (List Char) :=
  match side with
  | .client => cell? row 1
  | .server => cell? row 3
  | .combined => cell? row 1 <|> cell? row 3

/-- What stands on the lines behind the one with the column titles. -/
def body? (text : List Char) : Option (List Char) :=
  (Text.cutAt? "class (for reference only)".toList text).map fun parts =>
    ((Text.cut? '\n' parts.2).map Prod.snd).getD []

/-- Read a table of the oldest layout. -/
def parseOlder (file : String) (side : Side) (tree : MappingTree) (text : List Char) :
    Except FormatError Source := do
  let isMethod ← match fileName file with
    | "methods.csv" => .ok true
    | "fields.csv" => .ok false
    | _ => .error (.unsupportedFile .olderMcp file)
  let lookup ← Lookup.ofTree .olderMcp tree
  match body? text with
  | none => .error (.malformed .olderMcp ⟨1, .missingHeader "reference"⟩)
  | some body =>
      return lookup.source <| (Text.Csv.rows body).flatMap fun row =>
        match seargeCell? side row.fields, cell? row.fields 4 with
        | some searge, some name =>
            lookup.name isMethod searge name ((cell? row.fields 5).map String.ofList)
        | _, _ => []

end JarRemap.Format.Mcp
