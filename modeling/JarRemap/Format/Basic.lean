import JarRemap.Side
import JarRemap.Text.Cut

/-!
# Mapping formats

The formats a mapping source can have. Their order is significant: the entries of an archive are
read format by format in this order.
-/

namespace JarRemap

/-- A mapping format. -/
inductive Format where
  | tiny
  | tiny2
  | enigma
  | srg
  | tsrg
  | tsrg2
  | retroguard
  | mcp
  | oldMcp
  | olderMcp
  | proguard
  | parchment
deriving DecidableEq, Repr, Inhabited

/-- A word that names no format. -/
structure InvalidFormat where
  word : String
deriving DecidableEq, Repr

/-- What is said of a word that names no format. -/
def InvalidFormat.message (e : InvalidFormat) : String :=
  "Invalid mapping format " ++ Text.quote e.word

namespace Format

/-- All formats, in order. -/
def all : List Format :=
  [tiny, tiny2, enigma, srg, tsrg, tsrg2, retroguard, mcp, oldMcp, olderMcp, proguard, parchment]

/-- The place of a format in the order. -/
def position (f : Format) : Nat := f.ctorIdx

def name : Format → String
  | tiny => "tiny"
  | tiny2 => "tiny2"
  | enigma => "enigma"
  | srg => "srg"
  | tsrg => "tsrg"
  | tsrg2 => "tsrg2"
  | retroguard => "retroguard"
  | mcp => "mcp"
  | oldMcp => "old-mcp"
  | olderMcp => "older-mcp"
  | proguard => "proguard"
  | parchment => "parchment"

/-- The format of a word, in which case does not matter and an underscore is a hyphen. -/
def ofWord (word : String) : Except InvalidFormat Format :=
  let lower := String.ofList (Text.replace '_' '-' (asciiLower word).toList)
  match all.find? fun f => f.name = lower with
  | some f => .ok f
  | none => .error ⟨word⟩

end Format

end JarRemap
