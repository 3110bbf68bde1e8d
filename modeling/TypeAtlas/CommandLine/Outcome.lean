import TypeAtlas.CommandLine.Sources
import TypeAtlas.Report.Blocks
import TypeAtlas.Roots
import TypeAtlas.Text.Utf8

/-!
# Outcomes of commands

A command answers its question with blocks of output, an exit status and a log, and an analysis
writes its tables into files first. `run?` takes a command line and its surroundings to the outcome.
-/

namespace TypeAtlas.CommandLine

open Console

/-! ## §1 Replies to questions about one type -/

/-- An answer as it is written. -/
structure Reply where
  /-- The output. -/
  blocks : List Block
  /-- The exit status. -/
  status : Nat := 0

/-- The output that tells a reason to stop. -/
def complaintBlocks (message : String) : List Block :=
  [.line ("[red]Error: " ++ message ++ "[/red]")]

/-- The reply to a question, or a complaint about the type that it fails to resolve. -/
def orComplain {σ : Type} (question : Run σ Reply) : Run σ Reply := do
  match ← Run.orUnresolved question with
  | .ok reply => return reply
  | .error name =>
    return { blocks := complaintBlocks ("Type not found: " ++ name), status := 1 }

/-- The reply to a question about the one type that a name stands for. It is an error if there are
    none or several. -/
def onUnique {σ : Type} (ctx : Context σ) (json : Bool) (name : String)
    (question : TypeName → Run σ Reply) : Run σ Reply := do
  match (← ctx.resolution name).candidates with
  | [] => return { blocks := notFoundBlocks json name, status := 1 }
  | [t] => question t
  | ts => return { blocks := candidateBlocks json ts, status := 1 }

/-- Explore from a type if there is a bound. -/
def exploreIf {σ : Type} (ctx : Context σ) (t : TypeName) : Option Bound → Run σ Unit
  | none => return ()
  | some bound => do
    let _ ← ctx.explore t bound.toInt

/-- The reply to a question about the type of a name. -/
def Query.reply {σ : Type} (ctx : Context σ) (stack : CallStack) (json : Bool) (name : String) :
    Query → Run σ Reply
  | .resolve => do
    match (← ctx.resolution name).candidates with
    | [] => return { blocks := notFoundBlocks json name, status := 1 }
    | [t] => return { blocks := typeBlocks json t }
    | ts => return { blocks := candidateBlocks json ts }
  | .refs depth =>
    onUnique ctx json name fun t => orComplain do
      exploreIf ctx t depth
      return { blocks := (← ctx.neighbourhood t).blocks json }
  | .closure depth =>
    onUnique ctx json name fun t => orComplain do
      return { blocks := (← ctx.closureTree t (depth.map Bound.toInt)).blocks stack json }
  | .metrics depth =>
    onUnique ctx json name fun t => orComplain do
      return { blocks := (← ctx.metrics t (depth.map Bound.toInt)).blocks json }
  | .arguments method =>
    onUnique ctx json name fun t => do
      return { blocks := argumentBlocks json t method (← ctx.methodArgCount t method) }

/-! ## §2 Responses -/

/-- How a command ends. -/
inductive Ending where
  /-- With an exit status. -/
  | exit (status : Nat)
  /-- By breaking off. -/
  | crash (c : Crash)
  deriving Repr, DecidableEq

/-- What a command gives rise to. -/
structure Response where
  /-- How it ends, once its output is written. -/
  ending : Ending
  /-- Its output. -/
  blocks : List Block := []
  /-- The notices that it gave rise to. -/
  log : List Notice := []
  /-- The files that it wrote before its output, each with its content. -/
  written : List (Location × String) := []

/-- The response to a reason to stop. -/
def Stop.response : Stop → Response
  | .complaint message => { ending := .exit 1, blocks := complaintBlocks message }
  | .crash c => { ending := .crash c }

/-- The response to a question about the type of a name. -/
def queryResponse (stack : CallStack) (source : Source) (config : Config) (json : Bool)
    (name : String) (q : Query) : Response :=
  match source.ask config (fun ctx => q.reply ctx stack json name) with
  | (.ok reply, log) => { ending := .exit reply.status, blocks := reply.blocks, log }
  | (.error f, log) => { ending := .crash (.failure f), log }

/-- Write the tables of an analysis one after the other, up to the first that cannot be written. -/
def writeTables (tree : FileTree) (a : Analysis) :
    List (TableKind × FilePath) → List (Location × String) × Option FileFault
  | [] => ([], none)
  | (kind, path) :: rest =>
    let text := a.tableText kind
    match tree.write path (Text.encode text) with
    | .error fault => ([], some fault)
    | .ok tree =>
      let (written, fault) := writeTables tree a rest
      ((Location.ofPath path, text) :: written, fault)

/-- Write the tables of an analysis into a directory, which is made if there is none. -/
def exportTables (tree : FileTree) (a : Analysis) (directory : FilePath) :
    List (Location × String) × Option FileFault :=
  match tree.makeDirectory directory with
  | .error fault => ([], some fault)
  | .ok tree => writeTables tree a (Analysis.tablePaths directory)

/-- The response to an analysis of the types of the given names. -/
def analysisResponse (tree : FileTree) (source : Source) (config : Config) (json : Bool)
    (names : List String) (depth : Option Bound) (directory : FilePath) : Response :=
  match source.ask config (fun ctx => ctx.analysis names (depth.map Bound.toInt)) with
  | (.error f, log) => { ending := .crash (.failure f), log }
  | (.ok a, log) =>
    match exportTables tree a directory with
    | (written, some fault) => { ending := .crash (.file fault), log, written }
    | (written, none) =>
      { ending := .exit 0, blocks := a.blocks json (Analysis.tablePaths directory), log, written }

/-- The names that a file of roots lists. -/
def loadRoots (tree : FileTree) (p : FilePath) : Except Stop (List String) :=
  match tree.read p with
  | .error fault => .error (.crash (.file fault))
  | .ok octets =>
    match rootNames? octets with
    | none => .error (.crash .notText)
    | some names => .ok names

/-- The response to an invocation, or the reason why there is none. A missing file of roots is
    noticed before all else, and what is in it after the types have been found. -/
def Invocation.response (i : Invocation) (around : Surroundings) : Except Stop Response := do
  match i.request with
  | .query name q =>
    let config ← i.sources.settings around
    let source ← i.sources.source around config
    return queryResponse around.stack source config i.json name q
  | .analyze roots depth output =>
    if around.tree.holds roots then
      let config ← i.sources.settings around
      let source ← i.sources.source around config
      let names ← loadRoots around.tree roots
      let directory := output.getD (FilePath.ofString config.outputDir)
      return analysisResponse around.tree source config i.json names depth directory
    else .error (.complaint ("Roots file not found: " ++ roots.text))

/-! ## §3 Outcomes -/

/-- What can be seen of a command from outside. -/
structure Outcome where
  /-- The exit status. -/
  status : Nat
  /-- Why the command broke off, if it did. -/
  crash : Option Crash
  /-- The text that it wrote. -/
  output : String
  /-- The lines of its log. -/
  log : List String
  /-- The files that it wrote, each with its content. -/
  written : List (Location × String)
  deriving Repr, DecidableEq

/-- What can be seen of a response on a console. Output that cannot be written breaks the command
    off where it stands. -/
def Response.outcome (r : Response) (device : Device) (log : Option Bool) : Outcome :=
  let out := Console.write device r.blocks
  let ending := match out.fault with
    | none => r.ending
    | some fault => .crash (.output fault)
  { status := match ending with
      | .exit n => n
      | .crash _ => 1
    crash := match ending with
      | .exit _ => none
      | .crash c => some c
    output := out.text
    log := match log with
      | none => []
      | some verbose => logLines verbose r.log
    written := r.written }

/-- The outcome of an invocation. -/
def Invocation.outcome (i : Invocation) (around : Surroundings) : Outcome :=
  match i.response around with
  | .ok r => r.outcome around.device i.log
  | .error stop => stop.response.outcome around.device i.log

/-- The exit status of a command line that asks for nothing. -/
def misuseStatus : Nat := 2

/-- The outcome of a command line, if it asks for anything. -/
def run? (around : Surroundings) (words : List String) : Option Outcome :=
  (Invocation.ofWords? words).map fun i => i.outcome around

end TypeAtlas.CommandLine
