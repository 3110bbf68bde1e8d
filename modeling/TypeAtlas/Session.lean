import TypeAtlas.Config
import TypeAtlas.Graph
import TypeAtlas.Ordered.Map
import TypeAtlas.Provider

/-!
# Sessions

A session is what the questions asked of one provider under one set of settings share: the direct
references computed so far, the dependency graph, what the provider remembers, and a log. All of
them only grow, and what a question did before it failed stays done.
-/

namespace TypeAtlas

/-! ## §1 The log -/

/-- Something worth noting while a question is answered. -/
inductive Notice where
  /-- The direct references of a type are about to be computed. -/
  | computing (type : TypeName)
  /-- A walk met a type that cannot be described. -/
  | skippingNeighbour (type : TypeName) (referrer : Option TypeName)
  /-- A root of an analysis does not resolve. -/
  | skippingUnresolvedRoot (name : String)
  /-- A root of an analysis resolves but cannot be described. -/
  | skippingBlindRoot (name : TypeName)
  deriving Repr, DecidableEq

/-- How urgent a notice is. -/
inductive Level where
  | debug | warning
  deriving Repr, DecidableEq

namespace Notice

/-- The level of a notice: what an analysis leaves out deserves a warning. -/
def level : Notice → Level
  | .computing _ => .debug
  | .skippingNeighbour _ _ => .debug
  | .skippingUnresolvedRoot _ => .warning
  | .skippingBlindRoot _ => .warning

/-- The words of a notice. -/
def text : Notice → String
  | .computing t => "Computing direct references of " ++ t
  | .skippingNeighbour t referrer =>
    "Skipping unresolved type " ++ t ++ " (referenced by " ++ referrer.getD "None" ++ ")"
  | .skippingUnresolvedRoot n => "Skipping unresolved root type: " ++ n
  | .skippingBlindRoot n => "Skipping root type without metadata: " ++ n

/-- The line of a notice in a log. -/
def line (n : Notice) : String :=
  (match n.level with
    | .debug => "DEBUG: "
    | .warning => "WARNING: ") ++ n.text

end Notice

/-- The lines of a log, of warnings alone or of all notices. -/
def logLines (verbose : Bool) (log : List Notice) : List String :=
  (log.filter fun n => verbose || n.level == .warning).map Notice.line

/-! ## §2 State -/

/-- What the questions of one session share. -/
structure Session (σ : Type) where
  /-- What the provider remembers. -/
  memory : σ
  /-- The direct references of the types computed so far. -/
  descriptors : OrdMap TypeName NameSet := ∅
  /-- The dependency graph. -/
  graph : Graph := {}
  /-- The notices so far. -/
  log : List Notice := []

/-- A question within a session. -/
abbrev Run (σ α : Type) := ExceptT Failure (StateM (Session σ)) α

/-- What does not change during a session. -/
structure Context (σ : Type) where
  /-- The source of type descriptions. -/
  provider : Provider σ
  /-- The settings. -/
  config : Config

namespace Run

variable {σ α : Type}

/-- Ask the provider. -/
def ask (question : Asking σ α) : Run σ α :=
  ExceptT.mk fun s =>
    let (answer, memory) := question.run s.memory
    (answer, { s with memory })

/-- Note something in the log. -/
def note (n : Notice) : Run σ Unit := modify fun s => { s with log := s.log ++ [n] }

/-- Change the dependency graph. -/
def updateGraph (f : Graph → Graph) : Run σ Unit := modify fun s => { s with graph := f s.graph }

/-- The dependency graph. -/
def graph : Run σ Graph := return (← get).graph

/-- The answer to a question, or the name of the type that the question fails to resolve. Any other
    failure stays one. -/
def orUnresolved (question : Run σ α) : Run σ (Except TypeName α) :=
  ExceptT.mk fun s =>
    match question.run s with
    | (.ok answer, s) => (.ok (.ok answer), s)
    | (.error (.unresolved name), s) => (.ok (.error name), s)
    | (.error failure, s) => (.error failure, s)

end Run

end TypeAtlas
