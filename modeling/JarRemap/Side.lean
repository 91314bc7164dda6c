import JarRemap.Text.Quoted

/-!
# Sides

Some mapping sources differ between the client and the server of a game. A side says which half is
read, or that both are one.
-/

namespace JarRemap

/-- The half of a side-specific source that is read. -/
inductive Side where
  | client
  | server
  | combined
deriving DecidableEq, Repr, Inhabited

/-- A word that names no side. -/
structure InvalidSide where
  word : String
deriving DecidableEq, Repr

/-- What is said of a word that names no side. -/
def InvalidSide.message (e : InvalidSide) : String := "Invalid side " ++ Text.quote e.word

/-- A text with the ASCII capitals made small. -/
def asciiLower (s : String) : String := String.ofList (s.toList.map Char.toLower)

namespace Side

def name : Side → String
  | client => "client"
  | server => "server"
  | combined => "combined"

/-- The number of a side in the rows of exported tables. -/
def code : Side → Nat
  | client => 0
  | server => 1
  | combined => 2

/-- The side of a word, in which case does not matter. The combined side has two names. -/
def ofWord (word : String) : Except InvalidSide Side :=
  let lower := asciiLower word
  if lower = "client" then .ok client
  else if lower = "server" then .ok server
  else if lower = "combined" ∨ lower = "joined" then .ok combined
  else .error ⟨word⟩

/-- Whether a table row with the given side number counts when `side` is read: rows for both sides
always do, and every row does when both sides are one. -/
def accepts (side : Side) (code : Nat) : Bool :=
  code == 2 || side == combined || code == side.code

end Side

end JarRemap
