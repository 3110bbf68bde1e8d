import TypeAtlas.Codebase.Provider
import TypeAtlas.Closure.Tree
import TypeAtlas.CommandLine.Invocation
import TypeAtlas.Console.Block
import TypeAtlas.Files.Tree
import TypeAtlas.Index
import TypeAtlas.Schema.Reading
import TypeAtlas.Session

/-!
# Sources of types

What a command reads before it can answer: the settings, and the schema or codebase that describes
the types. Whatever is missing or unfit is a reason to stop. Most reasons are told to the person who
asked; some are not foreseen, and the command breaks off.
-/

namespace TypeAtlas.CommandLine

/-! ## §1 Surroundings -/

/-- What a command finds around it. -/
structure Surroundings where
  /-- The files. -/
  tree : FileTree := {}
  /-- The modules that can be imported. -/
  code : Codebase := { modules := [] }
  /-- The directory from which they are imported. -/
  codeDirectory : FilePath := {}
  /-- The console. -/
  device : Console.Device := {}
  /-- The call stack. -/
  stack : CallStack := {}
  /-- What the reader of JSON says of a text that is none. -/
  malformed : Octets → String := fun _ => "JSON is malformed"
  /-- Whether the call stack has room for the reader of JSON, on a text. -/
  hasRoom : Octets → Bool := fun _ => true

/-- The modules that are found on the given import paths. -/
def Surroundings.importable (s : Surroundings) (paths : List String) : Codebase :=
  let home := Location.ofPath s.codeDirectory
  if paths.any fun p => Location.ofPath (FilePath.ofString p) == home then s.code
  else { modules := [] }

/-! ## §2 Reasons to stop -/

/-- Why a command breaks off. -/
inductive Crash where
  /-- A block of output cannot be written. -/
  | output (fault : Console.Fault)
  /-- A file holds octets that are no characters. -/
  | notText
  /-- A file holds a text that is nested too deep. -/
  | tooNested
  /-- A file or directory cannot be used. -/
  | file (fault : FileFault)
  /-- A question has no answer. -/
  | failure (f : Failure)
  deriving Repr, DecidableEq

/-- Why a command stops before it has an answer. -/
inductive Stop where
  /-- For a reason to be told. -/
  | complaint (message : String)
  /-- For a reason that is not foreseen. -/
  | crash (c : Crash)
  deriving Repr, DecidableEq

/-! ## §3 Settings -/

/-- The settings that a file holds. -/
def loadConfig (around : Surroundings) (p : FilePath) : Except Stop Config :=
  match around.tree.read p with
  | .error fault =>
    .error (.complaint ("Cannot read config " ++ p.text ++ ": " ++ fault.message p.text))
  | .ok octets =>
    match Config.ofOctets octets with
    | .error fault =>
      .error (.complaint
        ("Invalid config " ++ p.text ++ ": " ++ fault.message (around.malformed octets)))
    | .ok config => .ok config

namespace Sources

/-- The settings of a command. -/
def settings (s : Sources) (around : Surroundings) : Except Stop Config := do
  let config ← match s.config with
    | none => pure {}
    | some p => loadConfig around p
  return if s.directEdges then { config with transitiveEdges := false } else config

/-- The schema file of a command: the one that it names, or else the one of the settings. -/
def schemaPath? (s : Sources) (config : Config) : Option FilePath :=
  match s.schema, config.schemaPath with
  | some p, _ => some p
  | none, some word => if word = "" then none else some (FilePath.ofString word)
  | none, none => none

end Sources

/-! ## §4 Types -/

/-- A description of types. -/
inductive Source where
  /-- The types of a schema. -/
  | schema (index : TypeIndex)
  /-- The classes of a codebase. -/
  | code (modules : Codebase)

/-- Why a file gives no schema. -/
inductive SchemaFault where
  /-- The document does not have the form of a schema. -/
  | form (fault : Json.Fault)
  /-- The document is nested deeper than there is room to read it. -/
  | tooNested
  deriving Repr, DecidableEq

/-- The schema that a file holds, if there is room to read it. -/
def Surroundings.readSchema (around : Surroundings) (octets : Octets) :
    Except SchemaFault Schema :=
  if around.hasRoom octets then
    match Schema.ofOctets octets with
    | .error fault => .error (.form fault)
    | .ok schema => .ok schema
  else .error .tooNested

/-- The index of the schema that a file holds. -/
def loadSchema (around : Surroundings) (config : Config) (p : FilePath) : Except Stop Source :=
  if !around.tree.holds p then .error (.complaint ("Schema file not found: " ++ p.text))
  else
    match around.tree.read p with
    | .error fault => .error (.crash (.file fault))
    | .ok octets =>
      match around.readSchema octets with
      | .error .tooNested => .error (.crash .tooNested)
      | .error (.form .notText) => .error (.crash .notText)
      | .error (.form fault) =>
        .error (.complaint
          ("Invalid schema " ++ p.text ++ ": " ++ fault.message (around.malformed octets)))
      | .ok schema => .ok (.schema (TypeIndex.ofSchema schema config.primitives))

/-- The description of types that a command asks for: a schema or a codebase, but not both. -/
def Sources.source (s : Sources) (around : Surroundings) (config : Config) : Except Stop Source :=
  match s.schema, s.runtime with
  | some _, true => .error (.complaint "Cannot use both --schema and --runtime")
  | none, true => .ok (.code (around.importable (config.importPaths ++ s.importPaths)))
  | _, false =>
    match s.schemaPath? config with
    | none => .error (.complaint "Either --schema or --runtime is required")
    | some p => loadSchema around config p

/-- The answer to a question about a description of types, within a session of its own, and the
    notices that it gave rise to. -/
def Source.ask {α : Type} (source : Source) (config : Config)
    (question : {σ : Type} → Context σ → Run σ α) : Except Failure α × List Notice :=
  match source with
  | .schema index =>
    let (answer, session) := (question ⟨index.provider, config⟩).run { memory := () }
    (answer, session.log)
  | .code modules =>
    let (answer, session) := (question ⟨modules.provider, config⟩).run { memory := .start }
    (answer, session.log)

end TypeAtlas.CommandLine
