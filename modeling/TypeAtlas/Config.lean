import TypeAtlas.Bound
import TypeAtlas.Name
import TypeAtlas.Json.Reading

/-!
# Settings

The settings that all questions of one session share, and their reading from a JSON document. A
settings file may leave out any part, but it may not hold a part of another name, and its depth has
to be a bound.
-/

namespace TypeAtlas

/-- The settings of a session. -/
structure Config where
  /-- How far a walk goes on unless a question says otherwise. -/
  depth : Bound := .unbounded
  /-- Whether a walk records all that an expanded type reaches, or direct references alone. -/
  transitiveEdges : Bool := true
  /-- Whether hierarchy roots count as references of the types that extend them. -/
  includeHierarchyRoot : Bool := false
  /-- The types at the top of a class hierarchy. -/
  hierarchyRoots : List TypeName := ["java.lang.Object", "builtins.object"]
  /-- Further names that count as primitive types. -/
  primitives : List TypeName := []
  /-- The directory for tables. -/
  outputDir : String := "."
  /-- The schema file to use unless a command names one. -/
  schemaPath : Option String := none
  /-- Directories from which modules are imported. -/
  importPaths : List String := []
  deriving Repr, DecidableEq

namespace Config

/-- Whether a supertype of this name is left out of the direct references. -/
def isHierarchyRoot (c : Config) (n : TypeName) : Bool :=
  !c.includeHierarchyRoot && c.hierarchyRoots.contains n

/-- Why a settings file gives no settings. -/
inductive Fault where
  /-- The document does not have the form of settings. -/
  | form (fault : Json.Fault)
  /-- The depth is no bound. -/
  | depth (d : Int)
  deriving Repr, DecidableEq

/-- The words for a fault, given those for the malformed text. -/
def Fault.message (malformed : String) : Fault → String
  | .form fault => fault.message malformed
  | .depth d => "depth must be -1 (unbounded) or >= 0, got " ++ toString d

/-- What has been read of a settings file: the depth as written, and the rest. -/
structure Parts where
  /-- The depth as written. -/
  depth : Int := -1
  /-- The rest, with defaults for what has not been read. -/
  rest : Config := {}

open Json in
/-- Reads one member of a settings file. An unknown one is refused before its value is read. -/
def member (p : Parts) (key : Option String) (path : Path) (node : Node) :
    Except Json.Fault Parts :=
  match key with
  | some "depth" => do return { p with depth := ← part "depth" integer path node }
  | some "transitive_edges" => do
    return { p with
      rest := { p.rest with transitiveEdges := ← part "transitive_edges" truth path node } }
  | some "include_hierarchy_root" => do
    return { p with
      rest := { p.rest with
        includeHierarchyRoot := ← part "include_hierarchy_root" truth path node } }
  | some "hierarchy_roots" => do
    return { p with
      rest := { p.rest with hierarchyRoots := ← part "hierarchy_roots" (list text) path node } }
  | some "primitives" => do
    return { p with
      rest := { p.rest with primitives := ← part "primitives" (list text) path node } }
  | some "output_dir" => do
    return { p with rest := { p.rest with outputDir := ← part "output_dir" text path node } }
  | some "schema" => do
    return { p with rest := { p.rest with schemaPath := ← part "schema" textOrNull path node } }
  | some "import_paths" => do
    return { p with
      rest := { p.rest with importPaths := ← part "import_paths" (list text) path node } }
  | key => do
    let name ← needText key
    .error (.unknown name path)

/-- The settings that have been read, if the depth as written is a bound. -/
def complete (p : Parts) : Except Fault Config :=
  match Bound.ofInt? p.depth with
  | some b => .ok { p.rest with depth := b }
  | none => .error (.depth p.depth)

/-- The settings that a file holds. The depth is looked at when the object closes, before what may
    follow it. -/
def ofOctets (bs : Octets) : Except Fault Config :=
  let d := Json.Document.ofOctets bs
  match Json.object {} member (fun _ p => .ok p) [] d.root with
  | .error fault => .error (.form fault)
  | .ok p =>
    match complete p with
    | .error fault => .error fault
    | .ok c => if d.ended then .ok c else .error (.form .malformed)

end Config

end TypeAtlas
