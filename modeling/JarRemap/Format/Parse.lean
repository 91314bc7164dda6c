import JarRemap.Format.Tiny
import JarRemap.Format.TinyTree
import JarRemap.Format.Enigma
import JarRemap.Format.Srg
import JarRemap.Format.Tsrg
import JarRemap.Format.Proguard
import JarRemap.Format.Mcp
import JarRemap.Format.Parchment

/-!
# Reading a mapping source

One function for all formats. Most formats are read from the text alone; the exported tables also
depend on the name of their file, the side and the tree that is being built.
-/

namespace JarRemap

/-- What a parser may know besides the text. -/
structure Circumstances where
  /-- The name of the file or archive entry. -/
  file : String
  side : Side
  tree : MappingTree

namespace Format

def parse (f : Format) (known : Circumstances) (text : List Char) : Except FormatError Source :=
  let lines (read : List Char → Except LineFault Source) : Except FormatError Source :=
    (read text).mapError (.malformed f)
  match f with
  | tiny => lines Tiny.parse
  | tiny2 => lines TinyTree.parse
  | enigma => lines Enigma.parse
  | srg => lines Srg.parse
  | tsrg => lines Tsrg.parse
  | tsrg2 => lines Tsrg.Wide.parse
  | retroguard => lines Retroguard.parse
  | mcp => Mcp.parse known.file known.side known.tree text
  | oldMcp => Mcp.parseOld known.file known.side text
  | olderMcp => Mcp.parseOlder known.file known.side known.tree text
  | proguard => lines Proguard.parse
  | parchment =>
      match Parchment.parse? text with
      | some source => .ok source
      | none => .error (.malformedJson f)

end Format

end JarRemap
