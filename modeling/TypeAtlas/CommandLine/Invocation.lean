import TypeAtlas.Bound
import TypeAtlas.CommandLine.Words
import TypeAtlas.Files.Path
import TypeAtlas.Text.Numeral

/-!
# Invocations

What a command line asks for: a question, where the types come from, and the form of the answer. A
command line that asks for nothing of the kind is a misuse.
-/

namespace TypeAtlas.CommandLine

/-- Where the types come from. -/
structure Sources where
  /-- The schema file. -/
  schema : Option FilePath := none
  /-- Whether the types are the classes of a codebase. -/
  runtime : Bool := false
  /-- The settings file. -/
  config : Option FilePath := none
  /-- Further directories from which modules are imported. -/
  importPaths : List String := []
  /-- Whether the dependency graph records direct references alone, whatever the settings say. -/
  directEdges : Bool := false
  deriving Repr, DecidableEq

/-- A question about the type of a name. -/
inductive Query where
  /-- Which types may the name stand for? -/
  | resolve
  /-- Which types are next to the type, after a walk of the given depth if there is one? -/
  | refs (depth : Option Bound)
  /-- Which types does the type reach? -/
  | closure (depth : Option Bound)
  /-- What are the metrics of the type? -/
  | metrics (depth : Option Bound)
  /-- How many arguments has a method of the type? -/
  | arguments (method : String)
  deriving Repr, DecidableEq

/-- What a command line asks. -/
inductive Request where
  /-- Analyse the types that a file lists, and write tables into a directory. -/
  | analyze (roots : FilePath) (depth : Option Bound) (output : Option FilePath)
  /-- Answer a question about the type of a name. -/
  | query (name : String) (q : Query)
  deriving Repr, DecidableEq

/-- All that a command line says. -/
structure Invocation where
  /-- The question. -/
  request : Request
  /-- Where the types come from. -/
  sources : Sources := {}
  /-- Whether the answer is a JSON document. -/
  json : Bool := false
  /-- Which notices go to the log: warnings, or all. There is no log at all for some questions. -/
  log : Option Bool := none
  deriving Repr, DecidableEq

namespace Given

/-- The path that an option names. -/
def path? (g : Given) (s : Switch) : Option FilePath := (g.value? s).map FilePath.ofString

/-- The bound that the option for the depth gives, if it is none or a bound. -/
def depth? (g : Given) : Option (Option Bound) :=
  match g.value? .depth with
  | none => some none
  | some word => ((Text.integer? word).bind Bound.ofInt?).map some

/-- Where the options say that the types come from. -/
def sources (g : Given) : Sources where
  schema := g.path? .schema
  runtime := g.has .runtime
  config := g.path? .config
  importPaths := g.values .importPath
  directEdges := g.has .directEdges

/-- The question of a command about its operand. -/
def request (g : Given) (depth : Option Bound) (operand : String) : Command → Request
  | .analyze => .analyze (FilePath.ofString operand) depth (g.path? .output)
  | .resolve => .query operand .resolve
  | .refs => .query operand (.refs depth)
  | .closure => .query operand (.closure depth)
  | .inspect =>
    .query operand (match g.value? .method with
      | none => .metrics depth
      | some method => .arguments method)

end Given

/-- The log of a command. -/
def Command.log (c : Command) (verbose : Bool) : Option Bool :=
  match c with
  | .analyze | .closure => some verbose
  | _ => none

namespace Invocation

/-- What a command with the given words behind it asks for. It has exactly one operand. -/
def ofCommand? (c : Command) (words : List String) : Option Invocation := do
  let g ← readWords c words
  let depth ← g.depth?
  match g.operands with
  | [operand] =>
    return {
      request := g.request depth operand c
      sources := g.sources
      json := g.has .json
      log := c.log (g.has .verbose) }
  | _ => none

/-- What a line asks for that begins with the name of a command. -/
def ofNamed? : List String → Option Invocation
  | [] => none
  | name :: words => do
    let c ← Command.all.find? fun c => c.name == name
    ofCommand? c words

/-- What a command line asks for. A double dash may stand in front. -/
def ofWords? : List String → Option Invocation
  | "--" :: words => ofNamed? words
  | words => ofNamed? words

end Invocation

end TypeAtlas.CommandLine
