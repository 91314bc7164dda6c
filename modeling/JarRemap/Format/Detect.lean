import JarRemap.Text.Lines
import JarRemap.Text.Utf8
import JarRemap.Format.Basic

/-!
# Telling the format of a text

Formats are told by how a text begins or by marks in its first characters. Enigma files have no
mark of their own and are never told.
-/

namespace JarRemap

/-- How many characters of a text are looked at. -/
def sniffWindow : Nat := 4096

/-- The text of a mapping file: its bytes as UTF-8, without a byte order mark. -/
def fileText (bytes : List UInt8) : List Char := Text.dropMark (Text.decodeLossy bytes)

namespace Format

/-- The first mark that is found decides. -/
def detect (text : List Char) : Option Format :=
  let window := (Text.dropMark text).take sniffWindow
  let begins (mark : String) : Bool := mark.toList.isPrefixOf window
  let contains (mark : String) : Bool := Text.occurs mark.toList window
  let firstLine := ((Text.lines window).head?).getD []
  let opening := String.ofList (window.take 3)
  if opening = "v1\t" then some tiny
  else if opening = "tin" then some tiny2
  else if ["PK:", "CL:", "FD:", "MD:"].contains opening then some srg
  else if [".cl", ".pa", ".me", ".fi", ".op"].contains opening then some retroguard
  else if window.head? = some '\x7b' then some parchment
  else if begins "tsrg2" then some tsrg2
  else if begins "searge,name" || begins "param,name" then some mcp
  else if Text.occurs "\"name\",\"notch\"".toList firstLine then some oldMcp
  else if contains "class (for reference only)" then some olderMcp
  else if contains "\n\t" then some tsrg
  else if contains " -> " then some proguard
  else none

end Format

end JarRemap
