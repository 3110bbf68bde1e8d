import TypeAtlas.Console.Block
import TypeAtlas.Files.Path
import TypeAtlas.Report.Objects
import TypeAtlas.Report.Tables
import TypeAtlas.Resolution

/-!
# Reports for a console

The form of each kind of answer on a console: as one JSON document, or as text for people. Names
are put into texts with tags as they are, so a bracket in a name can act as a tag.
-/

namespace TypeAtlas

open Console

/-! ## §1 Types -/

/-- What is written when a name stands for no type. -/
def notFoundBlocks (json : Bool) (query : String) : List Block :=
  if json then [.json (.obj [("error", .str "Type not found"), ("query", .str query)])]
  else [.line ("[red]Type not found: " ++ query ++ "[/red]")]

/-- What is written of one type. -/
def typeBlocks (json : Bool) (t : TypeName) : List Block :=
  if json then [.json (typeToJson t)]
  else [.line ("[bold]" ++ simpleName t ++ "[/bold]: " ++ t)]

/-- The lines of a numbered list, from the given number on. -/
def numberedLines (n : Nat) : List TypeName → List Block
  | [] => []
  | t :: rest => .line ("  [" ++ toString n ++ "] " ++ t) :: numberedLines (n + 1) rest

/-- What is written of several types. -/
def candidateBlocks (json : Bool) (ts : List TypeName) : List Block :=
  if json then [.json (candidatesToJson ts)]
  else
    .line ("[yellow]Found " ++ toString ts.length ++ " candidates:[/yellow]") :: numberedLines 1 ts

/-! ## §2 Neighbourhoods -/

/-- The lines of a list of types, or a line that says that there are none. -/
def typeLines (ts : List TypeName) : List Block :=
  if ts.isEmpty then [.line "[dim]None[/dim]"] else ts.map fun t => .line ("  " ++ t)

/-- What is written of the types next to a type. -/
def Neighbourhood.blocks (json : Bool) (n : Neighbourhood) : List Block :=
  if json then [.json n.toJson]
  else
    .line ("[bold]References of " ++ n.target ++ ":[/bold]") ::
      .line ("[bold]== REFERENCES (" ++ toString n.references.size ++ ") ==[/bold]") ::
      typeLines n.references.toList ++
    .line "" ::
      .line ("[bold]== REFERENCED BY (" ++ toString n.referrers.length ++ ") ==[/bold]") ::
      typeLines n.referrers

/-! ## §3 Closure trees -/

/-- The label of an entry of a closure tree. -/
def entryLabel (type : TypeName) (depth : Nat) (expanded unresolved : Bool) : String :=
  "[dim][" ++ toString depth ++ "][/dim] " ++ type ++
    (if unresolved then " [yellow](unresolved)[/yellow]"
      else if expanded then "" else " [dim](not expanded)[/dim]")

/-- The outline of an entry of a closure tree, given those of its children. -/
def outlineForm (type : TypeName) (depth : Nat) (expanded unresolved : Bool)
    (children : List Outline) : Outline :=
  .node (entryLabel type depth expanded unresolved) children

/-- What is written of a closure. A tree with too many levels breaks it off, behind the heading if
    there is one. -/
def ClosureTree.blocks (stack : CallStack) (json : Bool) (c : ClosureTree) : List Block :=
  if json then
    match c.toJson? stack with
    | some v => [.json v]
    | none => [.tooDeep]
  else
    .line ("[bold]Closure of " ++ c.target ++ " (depth=" ++ c.bound.text ++ "):[/bold]") ::
      match ClosureEntry.foldAll? outlineForm stack.drawing c.entries with
      | some outlines =>
        [.outline (.node ("[bold]" ++ c.target ++ "[/bold]") outlines),
          .line ("[dim]" ++ toString c.types.size ++ " associated types[/dim]")]
      | none => [.tooDeep]

/-! ## §4 Metrics -/

/-- The table of the counts of a type. -/
def Metrics.counterTable (m : Metrics) : Table where
  title := m.type
  headings := ["Metric", "Value"]
  rows := Counter.all.map fun c => [c.label, toString (m.count c)]

/-- The table of the methods of a type. -/
def Metrics.methodTable (m : Metrics) : Table where
  headings := ["Method", "Arguments"]
  rows := m.methodArgs.map fun e => [e.1, toString e.2]

/-- What is written of the metrics of a type. There is no table of methods without methods. -/
def Metrics.blocks (json : Bool) (m : Metrics) : List Block :=
  if json then [.json m.toJson]
  else if m.methodArgs.isEmpty then [.table m.counterTable]
  else [.table m.counterTable, .table m.methodTable]

/-- What is written of the number of arguments of one method. -/
def argumentBlocks (json : Bool) (t : TypeName) (method : String) (n : Nat) : List Block :=
  if json then
    [.json (.obj [("type", .str t), ("method", .str method), ("arguments", .nat n)])]
  else [.line (t ++ "." ++ method ++ ": " ++ toString n ++ " arguments")]

/-! ## §5 Analyses -/

namespace Analysis

/-- The paths of the files for the tables, in a directory. -/
def tablePaths (directory : FilePath) : List (TableKind × FilePath) :=
  TableKind.all.map fun k => (k, directory.child k.fileName)

/-- The depth of an analysis in words. -/
def depthText (a : Analysis) : String := if a.depth = -1 then "unbounded" else toString a.depth

/-- The table that sums up the metrics of the roots. -/
def summary (a : Analysis) : Table where
  title :=
    "Analyzed " ++ toString a.metrics.length ++ " root types (depth=" ++ a.depthText ++ ")"
  headings := ["Type", "Methods", "Members", "Direct", "Indirect"]
  rows := a.metrics.map fun m =>
    m.type ::
      [m.methods, m.members, m.directAssociations, m.indirectAssociations].map fun n => toString n

/-- The JSON form of an analysis whose tables are in files. -/
def withFiles (a : Analysis) (paths : List (TableKind × FilePath)) : Json :=
  .obj (a.jsonMembers ++ [("files", .obj (paths.map fun e => (e.1.key, .str e.2.text)))])

/-- What is written of an analysis whose tables are in files. -/
def blocks (json : Bool) (a : Analysis) (paths : List (TableKind × FilePath)) : List Block :=
  if json then [.json (a.withFiles paths)]
  else
    .table a.summary ::
      .line ("Graph: " ++ toString a.nodes.length ++ " nodes, " ++ toString a.edges.length ++
        " edges") ::
      a.unresolved.map (fun n => .line ("[yellow]Unresolved: " ++ n ++ "[/yellow]")) ++
      paths.map fun e => .line ("  - " ++ e.2.text)

end Analysis

end TypeAtlas
