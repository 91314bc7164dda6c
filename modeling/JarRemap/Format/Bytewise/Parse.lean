import JarRemap.Format.Bytewise.Flat
import JarRemap.Format.Bytewise.Nested
import JarRemap.Format.Bytewise.Enigma
import JarRemap.Format.Bytewise.Proguard
import JarRemap.Format.Bytewise.Mcp
import JarRemap.Format.Parse

/-!
# Reading a mapping source by offsets and indices

The parsers of all formats, as a program runs them. Documentation exports and the tables that give
the obfuscated names themselves are read by libraries alone, without a cut or an index.
-/

namespace JarRemap.Format.Bytewise

open Checked (lift)

/-- Read a mapping source, which ends the program if a cut or an index is out of bounds. -/
def parse (f : Format) (known : Circumstances) (text : List Char) :
    Checked FormatError Source :=
  let lines (read : List Char → Checked LineFault Source) : Checked FormatError Source :=
    (read text).mapError (Stop.map (.malformed f))
  match f with
  | .tiny => lines Tiny.parse
  | .tiny2 => lines TinyTree.parse
  | .enigma => lines Enigma.parse
  | .srg => lines Srg.parse
  | .tsrg => lines Tsrg.parse
  | .tsrg2 => lines Tsrg.Wide.parse
  | .retroguard => lines Retroguard.parse
  | .mcp => Mcp.parse known.file known.side known.tree text
  | .olderMcp => Mcp.parseOlder known.file known.side known.tree text
  | .proguard => lines Proguard.parse
  | .oldMcp | .parchment => lift (Format.parse f known text)

end JarRemap.Format.Bytewise
