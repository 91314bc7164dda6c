import JarRemap.Text.Slice
import JarRemap.Format.Mcp

/-!
# Exported name tables by offsets

The numbers in the searge names of all methods of the tree are cut out before a table is read, and
the body of a table of the oldest layout begins behind the first line end after its mark.
-/

namespace JarRemap.Format.Bytewise.Mcp

open Checked (fail lift)
open JarRemap.Format.Mcp (Lookup ParamRow fileName cell? seargeCell?)
open JarRemap.Format.Mcp.Lookup (dropMarks)

variable {ε : Type}

/-- The number in a searge method name `func_number_suffix`. -/
def methodNumber? (searge : List Char) : Checked ε (Option (List Char)) := do
  if "func_".toList.isPrefixOf searge then
    let rest ← Text.behind searge "func_".utf8ByteSize
    return (Text.splitOn '_' rest).head?.filter fun number => !number.isEmpty
  else return none

/-- A method of the tree with its class and the number in its searge name. -/
structure Numbered where
  number : Option (List Char)
  owner : ClassMapping
  method : MethodMapping

/-- The methods of the tree with the numbers in their searge names. -/
def numbered (l : Lookup) : Checked ε (List Numbered) :=
  (l.tree.classes.values.flatMap fun c => c.methods.map (c, ·)).mapM fun (c, m) => do
    match m.names.get? l.column with
    | none => return ⟨none, c, m⟩
    | some searge => return ⟨← methodNumber? searge.toList, c, m⟩

/-- Name the parameter `p_number_index_` of every method with the number. -/
def nameParam (methods : List Numbered) (param name : List Char) : List Record :=
  match Text.splitOn '_' (dropMarks param) with
  | number :: word :: _ =>
      match Text.index? word with
      | some index =>
          if number.head? = some 'i' then []
          else
            (methods.filter (·.number = some number)).map fun m =>
              ⟨.param m.owner.names.source m.method.names.source m.method.desc index,
                [none, nameOrNone name], none⟩
      | none => []
  | _ => []

/-- Read a table of the current layout. -/
def parse (file : String) (side : Side) (tree : MappingTree) (text : List Char) :
    Checked FormatError Source := do
  let lookup ← lift (Lookup.ofTree .mcp tree)
  let methods ← numbered lookup
  match fileName file with
  | "params.csv" => do
      let rows ← lift (Table.read .mcp ParamRow.read? text)
      let rows := rows.filter fun row => side.accepts row.side
      return lookup.source <| rows.flatMap fun row => nameParam methods row.param row.name
  | _ => lift (Format.Mcp.parse file side tree text)

/-- What stands on the lines behind the one with the column titles. -/
def body? (text : List Char) : Checked ε (Option (List Char)) := do
  match Text.findMark? "class (for reference only)".toList text with
  | none => return none
  | some title =>
      match Text.find? (· = '\n') (← Text.behind text title) with
      | none => return some []
      | some last => return some (← Text.behind text (title + last + 1))

/-- Read a table of the oldest layout. -/
def parseOlder (file : String) (side : Side) (tree : MappingTree) (text : List Char) :
    Checked FormatError Source := do
  let isMethod ← match fileName file with
    | "methods.csv" => pure true
    | "fields.csv" => pure false
    | _ => fail (.unsupportedFile .olderMcp file)
  let lookup ← lift (Lookup.ofTree .olderMcp tree)
  let _ ← numbered lookup
  match ← body? text with
  | none => fail (.malformed .olderMcp ⟨1, .missingHeader "reference"⟩)
  | some body =>
      return lookup.source <| (Text.Csv.rows body).flatMap fun row =>
        match seargeCell? side row.fields, cell? row.fields 4 with
        | some searge, some name =>
            lookup.name isMethod searge name ((cell? row.fields 5).map String.ofList)
        | _, _ => []

end JarRemap.Format.Bytewise.Mcp
