import TypeAtlas.Analysis
import TypeAtlas.Closure.Tree
import TypeAtlas.Neighbourhood
import TypeAtlas.Resolution

/-!
# Steps

A session is a sequence of steps. `GraphStep` holds the steps that touch the dependency graph alone,
`Step` all steps. A step that fails leaves behind what it did before it failed, and the next one
goes on from there.
-/

namespace TypeAtlas

/-! ## §1 Steps on the graph -/

/-- A step that touches the dependency graph alone. -/
inductive GraphStep where
  /-- Record one reference. -/
  | addEdge (referenced referrer : TypeName)
  /-- Record references of one type. -/
  | addAll (referenced : List TypeName) (referrer : TypeName)
  /-- Mark a root. -/
  | addRoot (type : TypeName)
  /-- Whether a type is a root. -/
  | isRoot (type : TypeName)
  /-- Whether some type references the given one. -/
  | contains (type : TypeName)
  /-- The roots. -/
  | roots
  /-- The types that reference the given one. -/
  | referrers (type : TypeName)
  /-- How many types reference the given one. -/
  | connectionCount (type : TypeName)
  /-- How many types are referenced. -/
  | size
  /-- The table of nodes. -/
  | nodes
  /-- The table of edges. -/
  | edges
  deriving Repr, DecidableEq

/-- The answer to a step on the graph. -/
inductive GraphAnswer where
  /-- The step only changes the graph. -/
  | done
  /-- A truth value. -/
  | truth (b : Bool)
  /-- A number. -/
  | count (n : Nat)
  /-- Names, in order. -/
  | names (ns : List TypeName)
  /-- The table of nodes. -/
  | nodes (rows : List Graph.NodeRow)
  /-- The table of edges. -/
  | edges (rows : List Graph.EdgeRow)
  deriving Repr, DecidableEq

namespace Graph

/-- The graph after a step. -/
def after (g : Graph) : GraphStep → Graph
  | .addEdge referenced referrer => g.addEdge referenced referrer
  | .addAll referenced referrer => g.addAll referenced referrer
  | .addRoot t => g.addRoot t
  | _ => g

/-- The answer to a step. -/
def answer (g : Graph) : GraphStep → GraphAnswer
  | .addEdge _ _ => .done
  | .addAll _ _ => .done
  | .addRoot _ => .done
  | .isRoot t => .truth (g.isRoot t)
  | .contains t => .truth (g.contains t)
  | .roots => .names g.roots.toList
  | .referrers t => .names (g.referrers t)
  | .connectionCount t => .count (g.connectionCount t)
  | .size => .count g.size
  | .nodes => .nodes g.nodeRows
  | .edges => .edges g.edgeRows

end Graph

/-! ## §2 All steps -/

/-- A step of a session. An absent depth means the one of the settings, for an exploration an
    unbounded one. -/
inductive Step where
  /-- The type that an exact name stands for. -/
  | resolve (name : String)
  /-- The types that a name may stand for. -/
  | search (name : String)
  /-- The fields of a type. -/
  | fields (type : TypeName)
  /-- The methods of a type. -/
  | methods (type : TypeName)
  /-- The constructors of a type. -/
  | constructors (type : TypeName)
  /-- The interfaces that a type implements. -/
  | interfaces (type : TypeName)
  /-- The types nested in a type. -/
  | nestedTypes (type : TypeName)
  /-- The type that a type extends. -/
  | superType (type : TypeName)
  /-- The type that a type is a member of. -/
  | declaringType (type : TypeName)
  /-- The type around a type. -/
  | enclosingType (type : TypeName)
  /-- The modifiers of a type. -/
  | modifiers (type : TypeName)
  /-- Whether a name stands for a primitive or array-like type. -/
  | isPrimitive (type : TypeName)
  /-- Whether a supertype of the name is left out of direct references. -/
  | isHierarchyRoot (name : TypeName)
  /-- The direct references of a type. -/
  | direct (type : TypeName)
  /-- Whether the direct references of a type have been computed. -/
  | isCached (type : TypeName)
  /-- The types associated with a type. -/
  | closure (type : TypeName) (depth : Option Int)
  /-- All that a walk from a type finds out. -/
  | explore (type : TypeName) (depth : Option Int)
  /-- The types that a name may stand for, as a resolution. -/
  | resolution (name : String)
  /-- The types next to a type. -/
  | neighbourhood (type : TypeName)
  /-- The closure of a type as a tree. -/
  | tree (type : TypeName) (depth : Option Int)
  /-- The metrics of a type. -/
  | metrics (type : TypeName) (depth : Option Int)
  /-- The number of arguments of a method. -/
  | methodArgCount (type : TypeName) (method : String)
  /-- The analysis of a list of roots. -/
  | analyze (names : List String) (depth : Option Int)
  /-- A step on the dependency graph. -/
  | graph (step : GraphStep)
  deriving Repr, DecidableEq

/-- The answer to a step. -/
inductive Answer where
  /-- A type. -/
  | type (t : TypeName)
  /-- A type, or none. -/
  | maybeType (t : Option TypeName)
  /-- Types, in the order of the provider. -/
  | types (ts : List TypeName)
  /-- A set of types. -/
  | typeSet (ts : NameSet)
  /-- A truth value. -/
  | truth (b : Bool)
  /-- A number. -/
  | count (n : Nat)
  /-- Fields. -/
  | fields (fs : List Field)
  /-- Methods. -/
  | methods (ms : List Method)
  /-- Constructors. -/
  | constructors (cs : List Constructor)
  /-- Modifiers. -/
  | modifiers (ms : Modifiers)
  /-- The outcome of a walk. -/
  | exploration (x : Exploration)
  /-- A resolution. -/
  | resolution (r : Resolution)
  /-- The types next to a type. -/
  | neighbourhood (n : Neighbourhood)
  /-- A closure tree. -/
  | tree (c : ClosureTree)
  /-- Metrics. -/
  | metrics (m : Metrics)
  /-- The outcome of an analysis. -/
  | analysis (a : Analysis)
  /-- The answer to a step on the graph. -/
  | graph (a : GraphAnswer)

namespace Context

variable {σ : Type}

/-- Take a step. -/
def answer (ctx : Context σ) : Step → Run σ Answer
  | .resolve name => return .type (← Run.ask (ctx.provider.resolve name))
  | .search name => return .types (← Run.ask (ctx.provider.search name))
  | .fields t => return .fields (← Run.ask (ctx.provider.fields t))
  | .methods t => return .methods (← Run.ask (ctx.provider.methods t))
  | .constructors t => return .constructors (← Run.ask (ctx.provider.constructors t))
  | .interfaces t => return .types (← Run.ask (ctx.provider.interfaces t))
  | .nestedTypes t => return .types (← Run.ask (ctx.provider.nestedTypes t))
  | .superType t => return .maybeType (← Run.ask (ctx.provider.superType t))
  | .declaringType t => return .maybeType (← Run.ask (ctx.provider.declaringType t))
  | .enclosingType t => return .maybeType (← Run.ask (ctx.provider.enclosingType t))
  | .modifiers t => return .modifiers (← Run.ask (ctx.provider.modifiers t))
  | .isPrimitive t => return .truth (ctx.provider.isPrimitive t)
  | .isHierarchyRoot n => return .truth (ctx.config.isHierarchyRoot n)
  | .direct t => return .typeSet (← ctx.directReferences t)
  | .isCached t => return .truth (← isCached t)
  | .closure t depth => return .typeSet (← ctx.closure t depth)
  | .explore t depth => return .exploration (← ctx.explore t (depth.getD (-1)))
  | .resolution name => return .resolution (← ctx.resolution name)
  | .neighbourhood t => return .neighbourhood (← ctx.neighbourhood t)
  | .tree t depth => return .tree (← ctx.closureTree t depth)
  | .metrics t depth => return .metrics (← ctx.metrics t depth)
  | .methodArgCount t method => return .count (← ctx.methodArgCount t method)
  | .analyze names depth => return .analysis (← ctx.analysis names depth)
  | .graph step => do
    let g ← Run.graph
    Run.updateGraph fun g => g.after step
    return .graph (g.answer step)

/-- The outcome of a step and the session after it. -/
def step (ctx : Context σ) (s : Session σ) (step : Step) : Except Failure Answer × Session σ :=
  (ctx.answer step).run s

/-- The session after a sequence of steps. -/
def after (ctx : Context σ) (s : Session σ) (steps : List Step) : Session σ :=
  steps.foldl (fun s step => (ctx.step s step).2) s

end Context

end TypeAtlas
