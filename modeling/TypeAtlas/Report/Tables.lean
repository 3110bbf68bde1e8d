import TypeAtlas.Analysis
import TypeAtlas.Report.Csv

/-!
# Reports as tables

An analysis fills four tables: the nodes and the edges of the dependency graph, the metrics of the
roots, and the arguments of their methods. Each begins with a row of headings.
-/

namespace TypeAtlas

/-- The tables that an analysis fills. -/
inductive TableKind where
  | nodes | edges | report | methods
  deriving Repr, DecidableEq

namespace TableKind

/-- All tables, in the order in which they are written. -/
def all : List TableKind := [.nodes, .edges, .report, .methods]

/-- The name of a table in a report. -/
def key : TableKind → String
  | .nodes => "nodes"
  | .edges => "edges"
  | .report => "report"
  | .methods => "methods"

/-- The name of the file that holds a table. -/
def fileName (k : TableKind) : String := k.key ++ ".csv"

end TableKind

namespace Analysis

/-- The rows of the table of nodes. -/
def nodeTable (a : Analysis) : List Csv.Row :=
  ["Id", "Label", "Connections"] ::
    a.nodes.map fun n => [n.type, simpleName n.type, toString n.connections]

/-- The rows of the table of edges. -/
def edgeTable (a : Analysis) : List Csv.Row :=
  ["Source", "Target", "Weight"] :: a.edges.map fun e => [e.source, e.target, toString e.weight]

/-- The rows of the table of metrics. -/
def reportTable (a : Analysis) : List Csv.Row :=
  ("class" :: Counter.all.map Counter.label) ::
    a.metrics.map fun m => m.type :: Counter.all.map fun c => toString (m.count c)

/-- The rows of the table of methods. -/
def methodTable (a : Analysis) : List Csv.Row :=
  ["Type", "Method", "Arguments"] ::
    a.metrics.flatMap fun m => m.methodArgs.map fun e => [m.type, e.1, toString e.2]

/-- The rows of a table. -/
def table (a : Analysis) : TableKind → List Csv.Row
  | .nodes => a.nodeTable
  | .edges => a.edgeTable
  | .report => a.reportTable
  | .methods => a.methodTable

/-- The text of a table. -/
def tableText (a : Analysis) (k : TableKind) : String := Csv.render (a.table k)

end Analysis

end TypeAtlas
