import JarRemap.Builder
import JarRemap.Task

/-!
# The command line

Options take the word behind them or behind an equals sign, and may be repeated only where several
values make sense. The one other word is the archive to remap. A request for help counts as soon as
it is read; what is missing or repeated is found when all words are read.
-/

namespace JarRemap

/-- The options that take a value. -/
inductive CommandOption where
  | mappings
  | named
  | out
  | config
  | source
  | fallback
  | target
  | side
  | classpath
  | core
  | work
deriving DecidableEq, Repr

namespace CommandOption

def all : List CommandOption :=
  [mappings, named, out, config, source, fallback, target, side, classpath, core, work]

/-- The word of an option, without the hyphens before it. -/
def word : CommandOption → String
  | mappings => "mappings"
  | named => "named"
  | out => "out"
  | config => "config"
  | source => "from"
  | fallback => "fallback"
  | target => "to"
  | side => "side"
  | classpath => "classpath"
  | core => "core"
  | work => "work"

/-- Whether an option may be repeated. -/
def isMultiple : CommandOption → Bool
  | mappings | named | classpath | core => true
  | _ => false

/-- What an option does, in words. -/
def help : CommandOption → String
  | mappings => "A mapping file or archive to load"
  | named => "Mark a namespace as holding readable names"
  | out => "Where to write the remapped jar"
  | config => "A json file with the task's configuration"
  | source => "The namespace the input is in"
  | fallback => "The namespace to route through when the input's has no path"
  | target => "The namespace to remap into"
  | side => "The side to load mappings for: client, server or combined"
  | classpath => "A dependency of the input"
  | core => "The game jar in a namespace, as namespace=path"
  | work => "Where intermediate jars are written"

end CommandOption

/-- What is asked for. -/
inductive Request where
  | help
  | version
deriving DecidableEq, Repr

/-- Why words are no invocation. -/
inductive UsageError where
  | unknownWord (word : String)
  | missingValue (option : CommandOption)
  | repeated (word : String)
  | missingOption (option : CommandOption)
  | missingInput
deriving DecidableEq, Repr

/-- The error in words. -/
def UsageError.message : UsageError → String
  | unknownWord word => "Found argument '" ++ word ++ "' which wasn't expected"
  | missingValue option => "The argument '--" ++ option.word ++ "' requires a value"
  | repeated word => "The argument '--" ++ word ++ "' was provided more than once"
  | missingOption option => "The argument '--" ++ option.word ++ "' is required"
  | missingInput => "The jar to remap is required"

/-- What words say. -/
structure Words where
  /-- The values of options, in order. -/
  values : List (CommandOption × String) := []
  /-- The options that were read, in order. -/
  read : List CommandOption := []
  /-- How often the older layout of access transformers was asked for. -/
  legacy : Nat := 0
  input : Option String := none
  /-- The option whose value comes next. -/
  pending : Option CommandOption := none
  /-- Whether options are over. -/
  onlyInput : Bool := false

namespace Words

/-- Why reading stops. -/
inductive Stop where
  | request (r : Request)
  | usage (e : UsageError)

/-- Read the archive to remap. -/
def readInput (w : Words) (word : String) : Except Stop Words :=
  match w.input with
  | none => .ok { w with input := some word }
  | some _ => .error (.usage (.unknownWord word))

/-- Read an option: its word, and the text behind an equals sign. -/
def readOption (w : Words) (word : String) (value : Option (List Char)) : Except Stop Words :=
  match CommandOption.all.find? fun o => o.word = word with
  | some o =>
      let w := { w with read := w.read ++ [o] }
      match value with
      | some text =>
          let text := String.ofList (text.dropWhile (· = '='))
          .ok { w with values := w.values ++ [(o, text)], pending := none }
      | none => .ok { w with pending := some o }
  | none =>
      match word with
      | "legacy" => .ok { w with legacy := w.legacy + 1, pending := none }
      | "help" => .error (.request .help)
      | "version" => .error (.request .version)
      | _ => .error (.usage (.unknownWord word))

def readWord (w : Words) (word : String) : Except Stop Words :=
  if w.onlyInput then w.readInput word
  else
    match word.toList with
    | ['-', '-'] => .ok { w with onlyInput := true }
    | '-' :: '-' :: rest =>
        let text := rest.dropWhile (· = '-')
        match Text.cut? '=' text with
        | some (name, value) => w.readOption (String.ofList name) (some value)
        | none => w.readOption (String.ofList text) none
    | '-' :: 'h' :: _ => .error (.request .help)
    | '-' :: 'V' :: _ => .error (.request .version)
    | '-' :: _ :: _ => .error (.usage (.unknownWord word))
    | _ =>
        match w.pending with
        | some o => .ok { w with values := w.values ++ [(o, word)], pending := none }
        | none => w.readInput word

def valuesOf (w : Words) (o : CommandOption) : List String :=
  (w.values.filter fun v => v.1 = o).map Prod.snd

def valueOf? (w : Words) (o : CommandOption) : Option String := (w.valuesOf o).head?

/-- What is wrong with the options. -/
def check (w : Words) : Except UsageError Unit := do
  if w.input.isNone then throw .missingInput
  for o in [CommandOption.mappings, .out] do
    if !w.read.contains o then throw (.missingOption o)
  for o in w.read do
    if o ≠ .work && (w.valuesOf o).isEmpty then throw (.missingValue o)
    if !o.isMultiple && 1 < w.read.count o then throw (.repeated o.word)
  if 1 < w.legacy then throw (.repeated "legacy")

end Words

/-- What the program is to do. -/
structure Invocation where
  mappings : List String
  named : List String
  output : String
  config : Option String
  source : Option String
  fallback : Option String
  target : Option String
  side : Option String
  legacy : Bool
  classpath : List String
  core : List String
  work : String
  input : String
deriving DecidableEq, Repr

/-- Why the program fails. -/
inductive CommandError where
  | usage (e : UsageError)
  | side (e : InvalidSide)
  | build (e : BuildError)
  /-- The configuration cannot be read. -/
  | disk (e : DiskError)
  | invalidConfig
  /-- The game is given without a namespace. -/
  | invalidCore (word : String)
  | run (e : RunError)
deriving DecidableEq, Repr

/-- The error in words. -/
def CommandError.message : CommandError → String
  | usage e => e.message
  | side e => e.message
  | build e => e.message
  | disk e => e.message
  | invalidConfig => "Invalid configuration"
  | invalidCore word => "Expected namespace=path, got " ++ Text.quote word
  | run e => e.message

/-- The directory of the archives between hops, if none is given. -/
def defaultWork : String := "build/tmp/remapJar"

namespace Invocation

/-- The invocation that words describe, or what else is asked for. -/
def ofWords (words : List String) : Except UsageError (Request ⊕ Invocation) := do
  match words.foldlM Words.readWord {} with
  | .error (.request r) => return .inl r
  | .error (.usage e) => throw e
  | .ok w =>
      w.check
      return .inr
        { mappings := w.valuesOf .mappings
          named := w.valuesOf .named
          output := (w.valueOf? .out).getD ""
          config := w.valueOf? .config
          source := w.valueOf? .source
          fallback := w.valueOf? .fallback
          target := w.valueOf? .target
          side := w.valueOf? .side
          legacy := w.legacy ≠ 0
          classpath := w.valuesOf .classpath
          core := w.valuesOf .core
          work := (w.valueOf? .work).getD defaultWork
          input := w.input.getD "" }

/-- The side that is asked for. -/
def side? (i : Invocation) : Except CommandError (Option Side) :=
  match i.side with
  | none => .ok none
  | some word => ((Side.ofWord word).mapError .side).map some

def buildTree (i : Invocation) (d : Disk) (side : Side) : Except CommandError MappingTree := do
  let start ← (Builder.chooseSide {} side).mapError .build
  let input : MappingInput := { adaptation := { source := Namespace.official }, named := i.named }
  let read (b : Builder) (path : String) : Except BuildError Builder :=
    b.call (.file d ⟨path⟩ input)
  let b ← (i.mappings.foldlM read start).mapError .build
  return b.freeze.tree

/-- The settings in the configuration file, if there is one. -/
def readConfig (i : Invocation) (d : Disk) : Except CommandError TaskConfig :=
  match i.config with
  | none => .ok {}
  | some path =>
      match d.read ⟨path⟩ with
      | .error e => .error (.disk e)
      | .ok c =>
          match (Text.decode? c.toBytes).bind TaskConfig.ofText? with
          | none => .error .invalidConfig
          | some config => .ok config

/-- The settings: what the words say, else what the configuration says. -/
def settings (i : Invocation) (config : TaskConfig) (side : Option Side) : Settings :=
  TaskConfig.resolve
    { config with
      source := i.source <|> config.source
      fallback := i.fallback <|> config.fallback
      target := i.target <|> config.target
      legacy := if i.legacy then some true else config.legacy
      side := side <|> config.side }
    {}

/-- A namespace and the archive of the game in it. -/
def core? (word : String) : Option (String × Path) :=
  (Text.cut? '=' word.toList).map fun (name, path) =>
    (String.ofList name, ⟨String.ofList path⟩)

def classpathOf (i : Invocation) : Except CommandError Classpath := do
  let core ← i.core.mapM fun word =>
    match core? word with
    | some core => .ok core
    | none => .error (.invalidCore word)
  return ⟨i.classpath.map Path.mk, .ofList core⟩

def task (i : Invocation) (d : Disk) (workers : Nat) : Except CommandError Task := do
  let side ← i.side?
  let tree ← i.buildTree d (side.getD .combined)
  let config ← i.readConfig d
  let classpath ← i.classpathOf
  return { tree, classpath, workers, settings := i.settings config side, workDirectory := ⟨i.work⟩ }

/-- The paths that the words name, and that of the extracted manifest. -/
def namedPaths (i : Invocation) : List Path :=
  (i.mappings ++ i.config.toList ++ i.classpath ++ [i.input, i.output]).map Path.mk ++
    (i.core.filterMap core?).map Prod.snd ++
    [⟨i.work⟩, (Path.mk i.work).join Packager.extractedManifest]

/-- The paths of the archives between hops, which may be there from a run before. -/
def leftovers (i : Invocation) (d : Disk) : List Path :=
  match i.task d 1 with
  | .error _ => []
  | .ok task => task.tree.namespaces.map (task.target (task.stem ⟨i.input⟩))

def run (i : Invocation) (d : Disk) (workers : Nat) : Except CommandError Unit × Disk :=
  match i.task d workers with
  | .error e => (.error e, d)
  | .ok task =>
      let result := (task.run {} ⟨i.input⟩ ⟨i.output⟩).run { disk := d }
      (result.1.mapError .run, result.2.disk)

end Invocation

/-- What the program can be asked for, in words. -/
def helpText : String :=
  let line (word help : String) : String := "    --" ++ word ++ "  " ++ help ++ "\n"
  let options := CommandOption.all.map fun o => line (o.word ++ " <" ++ o.word ++ ">") o.help
  "USAGE:\n    jar-remap [OPTIONS] --mappings <mappings>... --out <out> <input>\n\n" ++
    "ARGS:\n    <input>  The jar to remap\n\nOPTIONS:\n" ++ String.join options ++
    line "legacy" "Write access transformers in the legacy format" ++
    line "help" "Print help information" ++ line "version" "Print version information"

/-- The version of the program. -/
def version : String := "jar-remap 0.1.0"

/-- Run the program on a disk: its exit code, and the disk behind it. -/
def runCommand (words : List String) (d : Disk) (workers : Nat) : Nat × Disk :=
  match Invocation.ofWords words with
  | .error _ => (1, d)
  | .ok (.inl _) => (0, d)
  | .ok (.inr i) =>
      match i.run d workers with
      | (.ok _, d) => (0, d)
      | (.error _, d) => (1, d)

end JarRemap
