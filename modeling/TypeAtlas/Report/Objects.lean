import TypeAtlas.Analysis
import TypeAtlas.Closure.Tree
import TypeAtlas.Json.Value
import TypeAtlas.Neighbourhood

/-!
# Reports as JSON

The JSON form of each kind of answer.
-/

namespace TypeAtlas

/-- A set of names as an array, in order. -/
def NameSet.toJson (s : NameSet) : Json := .strs s.toList

/-! ## §1 Types -/

/-- A type with its last name component. -/
def typeToJson (t : TypeName) : Json :=
  .obj [("name", .str t), ("simple_name", .str (simpleName t))]

/-- The types that a name may stand for. -/
def candidatesToJson (ts : List TypeName) : Json := .arr (ts.map typeToJson)

/-- The types next to a type. -/
def Neighbourhood.toJson (n : Neighbourhood) : Json :=
  .obj [("type", .str n.target), ("references", n.references.toJson),
    ("referrers", .strs n.referrers)]

/-! ## §2 Closure trees -/

/-- The JSON form of an entry of a closure tree, given those of its children. -/
def entryForm (type : TypeName) (depth : Nat) (expanded unresolved : Bool) (children : List Json) :
    Json :=
  .obj [("depth", .nat depth), ("type", .str type), ("expanded", .bool expanded),
    ("unresolved", .bool unresolved), ("children", .arr children)]

/-- A closure tree, with the number of its entries, if the call stack has room for its levels. -/
def ClosureTree.toJson? (stack : CallStack) (c : ClosureTree) : Option Json := do
  let total ← ClosureEntry.count? stack.counting c.entries
  let entries ← ClosureEntry.foldAll? entryForm stack.converting c.entries
  return .obj [("target", .str c.target), ("max_depth", .int c.bound.toInt),
    ("total", .nat total), ("types", c.types.toJson),
    ("unresolved", c.unresolved.toJson), ("tree", .arr entries)]

/-! ## §3 Metrics and analyses -/

/-- The number of arguments of one method. -/
def methodArgToJson (m : String × Nat) : Json :=
  .obj [("method", .str m.1), ("arguments", .nat m.2)]

/-- The metrics of a type, counter by counter. -/
def Metrics.toJson (m : Metrics) : Json :=
  .obj (("type", .str m.type) :: Counter.all.map (fun c => (c.key, .nat (m.count c))) ++
    [("method_args", .arr (m.methodArgs.map methodArgToJson))])

/-- A row of the table of nodes. -/
def Graph.NodeRow.toJson (n : Graph.NodeRow) : Json :=
  .obj [("id", .str n.type), ("label", .str (simpleName n.type)),
    ("connections", .nat n.connections)]

/-- A row of the table of edges. -/
def Graph.EdgeRow.toJson (e : Graph.EdgeRow) : Json :=
  .obj [("source", .str e.source), ("target", .str e.target), ("weight", .nat e.weight)]

namespace Analysis

/-- The members of the JSON form of an analysis. -/
def jsonMembers (a : Analysis) : List (String × Json) :=
  [("depth", .int a.depth), ("roots", .strs a.roots), ("unresolved", .strs a.unresolved),
    ("metrics", .arr (a.metrics.map Metrics.toJson)),
    ("nodes", .arr (a.nodes.map Graph.NodeRow.toJson)),
    ("edges", .arr (a.edges.map Graph.EdgeRow.toJson))]

/-- The outcome of an analysis. -/
def toJson (a : Analysis) : Json := .obj a.jsonMembers

end Analysis

end TypeAtlas
