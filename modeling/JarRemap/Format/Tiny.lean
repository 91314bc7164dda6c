import JarRemap.Text.Cut
import JarRemap.Format.LineReader

/-!
# The flat tiny format

Columns between tabs. The first line names the namespaces, every other one a class, or a field or
method with its owner and descriptor. Lines behind a number sign are remarks.
-/

namespace JarRemap.Format.Tiny

/-- The namespaces of the first line. -/
def header : Option (List Char) → Except Fault (String × List String)
  | none => .error (.missingHeader "v1")
  | some line =>
      match Text.stripStart? "v1\t".toList line with
      | none => .error (.missingHeader "v1")
      | some rest =>
          match Text.splitOn '\t' rest with
          | [] => .error .noNamespaces
          | key :: others => .ok (String.ofList key, others.map String.ofList)

/-- Read one line. -/
def step : Step Unit := fun _ line =>
  match line with
  | [] | '#' :: _ => .ok ((), [])
  | _ =>
      let parts := Text.splitOn '\t' line
      let kind := String.ofList (parts.headD [])
      match kind, parts.tail with
      | "CLASS", [] => .error .missingClassName
      | "CLASS", names => .ok ((), [typeRecord names])
      | "FIELD", owner :: desc :: name :: names =>
          .ok ((), [fieldRecord (String.ofList owner) (some desc) (name :: names)])
      | "METHOD", owner :: desc :: name :: names =>
          .ok ((), [methodRecord (String.ofList owner) (some desc) (name :: names)])
      | "FIELD", _ => .error (.incomplete kind)
      | "METHOD", _ => .error (.incomplete kind)
      | _, _ => .error (.unknownEntry kind)

/-- Read a text in the flat tiny format. -/
def parse (text : List Char) : Except LineFault Source := do
  let lines := Text.numberedLines text
  let (key, others) ← (header (lines.head?.map Prod.snd)).mapError (LineFault.mk 1)
  let records ← readLines step () lines.tail
  return (Source.start key others).pushAll records

end JarRemap.Format.Tiny
