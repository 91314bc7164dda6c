/-!
# Namespaces

A namespace is one coordinate system for symbol names: the obfuscated names, the stable ones, the
readable ones. Some have fixed names because a file format always speaks of them.
-/

namespace JarRemap

/-- One coordinate system for symbol names. -/
structure Namespace where
  name : String
  /-- Whether it holds readable names. -/
  named : Bool
deriving DecidableEq, Repr

namespace Namespace

/-- The names as the game is published. -/
def official : String := "official"

/-- The conventional name of the readable namespace. -/
def readable : String := "named"

/-- The stable names of the searge tables. -/
def searge : String := "searge"

/-- The readable names of the exported tables. -/
def mcp : String := "mcp"

/-- The readable names of the published obfuscation log. -/
def mojmap : String := "mojmap"

/-- The word by which access wideners refer to a namespace. -/
def token (n : Namespace) : String := if n.named then readable else n.name

end Namespace

end JarRemap
