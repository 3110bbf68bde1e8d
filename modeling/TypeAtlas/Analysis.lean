import TypeAtlas.Metrics
import TypeAtlas.Text.Blank

/-!
# Analyses

An analysis looks at a list of root types and reads out the dependency graph. All names are
resolved before the first walk, so the weights of edges know every root. A name that does not
resolve and a type that cannot be described are left out and reported.
-/

namespace TypeAtlas

/-- The outcome of an analysis. -/
structure Analysis where
  /-- The depth of the walks, as asked for. -/
  depth : Int
  /-- The metrics of the roots, in order. -/
  metrics : List Metrics
  /-- The names that were left out. -/
  unresolved : List String
  /-- The table of nodes. -/
  nodes : List Graph.NodeRow
  /-- The table of edges. -/
  edges : List Graph.EdgeRow
  deriving Repr, DecidableEq

namespace Analysis

/-- The roots that have been analysed, in order. -/
def roots (a : Analysis) : List TypeName := a.metrics.map Metrics.type

/-- The metrics of the root of the given name. -/
def metricsFor? (a : Analysis) (name : TypeName) : Option Metrics :=
  a.metrics.find? fun m => m.type == name

end Analysis

/-- The names in a list without the blanks around them: each once, and no empty one. -/
def cleanNames (names : List String) : List String :=
  names.foldl (fun acc n =>
    let n := Text.strip n
    if n = "" ∨ n ∈ acc then acc else acc ++ [n]) []

/-- A list of things parted in two: those that went well, and the names of those that did not. -/
structure Parted (α : Type) where
  /-- What went well, in order. -/
  kept : List α := []
  /-- The names of what did not. -/
  lost : List String := []

namespace Context

variable {σ : Type}

/-- Resolve the names of roots and register the types as roots, each once. -/
def registerRoots (ctx : Context σ) (names : List String) : Run σ (Parted TypeName) :=
  names.foldlM (fun acc n => do
    match ← Run.orUnresolved (Run.ask (ctx.provider.resolve n)) with
    | .ok t =>
      if t ∈ acc.kept then return acc
      else
        Run.updateGraph fun g => g.addRoot t
        return { acc with kept := acc.kept ++ [t] }
    | .error _ =>
      Run.note (.skippingUnresolvedRoot n)
      return { acc with lost := acc.lost ++ [n] }) {}

/-- The metrics of the given roots. -/
def measureRoots (ctx : Context σ) (depth : Int) (roots : List TypeName) :
    Run σ (Parted Metrics) :=
  roots.foldlM (fun acc t => do
    match ← Run.orUnresolved (ctx.metrics t (some depth)) with
    | .ok m => return { acc with kept := acc.kept ++ [m] }
    | .error name =>
      Run.note (.skippingBlindRoot name)
      return { acc with lost := acc.lost ++ [t] }) {}

/-- Analyse the types of the given names. -/
def analysis (ctx : Context σ) (names : List String) (depth : Option Int) : Run σ Analysis := do
  let depth := ctx.depthOr depth
  let roots ← ctx.registerRoots (cleanNames names)
  let rows ← ctx.measureRoots depth roots.kept
  let g ← Run.graph
  return {
    depth
    metrics := rows.kept
    unresolved := roots.lost ++ rows.lost
    nodes := g.nodeRows
    edges := g.edgeRows }

end Context

end TypeAtlas
