import JarRemap.Namespace
import JarRemap.Side
import JarRemap.Json.Reader

/-!
# Settings of a task

What a user may set for one task, as JSON. Everything that is left out is taken from the defaults of
the project.
-/

namespace JarRemap

/-- What a project sets for all its tasks. -/
structure Defaults where
  /-- The namespace the project is developed in. -/
  dev : String := Namespace.readable
  /-- The namespace to start from where the first has no route. -/
  fallback : String := "intermediary"
  /-- The namespace the project is published in. -/
  prod : String := "intermediary"
  /-- Whether access transformers are written in their older layout. -/
  legacy : Bool := false
  side : Side := .combined
deriving DecidableEq, Repr

/-- What a user sets for one task. -/
structure TaskConfig where
  source : Option String := none
  fallback : Option String := none
  target : Option String := none
  legacy : Option Bool := none
  side : Option Side := none
  wildcards : Bool := false
deriving DecidableEq, Repr

/-- What a task runs with. -/
structure Settings where
  dev : String
  fallback : String
  prod : String
  legacy : Bool
  side : Side
  wildcards : Bool
deriving DecidableEq, Repr

namespace TaskConfig

open Json (Document)

/-- The names of the settings, in order. -/
def fields : List Json.Field :=
  [⟨"source_namespace", true⟩, ⟨"fallback_namespace", true⟩, ⟨"target_namespace", true⟩,
    ⟨"remap_at_to_legacy", true⟩, ⟨"side", true⟩, ⟨"allow_implicit_wildcards", true⟩]

/-- Read a side. -/
def side? (d : Document) : Option Side := d.text?.bind fun word => (Side.ofWord word).toOption

/-- Read the settings of a task; no other settings may be given. -/
def ofDocument? (d : Document) : Option TaskConfig := do
  let text := Document.readField? (·.optional? Document.text?) none
  match ← d.fields? fields true with
  | [source, fallback, target, legacy, side, wildcards] =>
      return ⟨← text source, ← text fallback, ← text target,
        ← Document.readField? (·.optional? Document.flag?) none legacy,
        ← Document.readField? (·.optional? side?) none side,
        ← Document.readField? Document.flag? false wildcards⟩
  | _ => none

/-- Read the settings of a task from a text. -/
def ofText? (text : List Char) : Option TaskConfig :=
  (Document.ofText? text).bind ofDocument?

/-- Take what is left out from the defaults of the project. -/
def resolve (c : TaskConfig) (defaults : Defaults) : Settings where
  dev := c.source.getD defaults.dev
  fallback := c.fallback.getD defaults.fallback
  prod := c.target.getD defaults.prod
  legacy := c.legacy.getD defaults.legacy
  side := c.side.getD defaults.side
  wildcards := c.wildcards

end TaskConfig

end JarRemap
