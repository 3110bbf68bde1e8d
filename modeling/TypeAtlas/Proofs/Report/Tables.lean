import Mathlib
import TypeAtlas.CommandLine.Outcome
import TypeAtlas.Proofs.Report.Csv

/-!
# Tables and JSON reports

An analysis is reported twice, as four tables and as one JSON value. Read back, the text of a table
holds the headings and then the rows that the JSON value shows in the corresponding columns. So the
two reports tell the same, and the tables lose nothing of what they are about.

Main statement: `Analysis.tables_read_back`.
-/

namespace TypeAtlas

/-! ## §1 JSON values as tables -/

namespace Json

/-- The value of a member of an object. -/
def member? (key : String) : Json → Option Json
  | .obj ms => Entries.get? ms key
  | _ => none

/-- The keys of an object, in order. -/
def keys : Json → List String
  | .obj ms => ms.map Prod.fst
  | _ => []

/-- The items of an array. -/
def items? : Json → Option (List Json)
  | .arr vs => some vs
  | _ => none

/-- The cell of a table that shows a value. -/
def cell? : Json → Option String
  | .str s => some s
  | .int n => some (toString n)
  | _ => none

/-- The row that shows the members of an object that have the given keys. -/
def row? (keys : List String) (v : Json) : Option Csv.Row :=
  keys.mapM fun k => (v.member? k).bind cell?

/-- The rows that show the objects of an array. -/
def rows? (keys : List String) (v : Json) : Option (List Csv.Row) := do
  (← v.items?).mapM (row? keys)

/-- The rows that show the arguments of the methods of a type, given the object of its metrics. -/
def argumentRows? (v : Json) : Option (List Csv.Row) := do
  let type ← (← v.member? "type").cell?
  let rows ← (← v.member? "method_args").rows? ["method", "arguments"]
  return rows.map (type :: ·)

end Json

private theorem mapM_map_eq_some {α β γ : Type} {f : α → β} {g : β → Option γ} {h : α → γ}
    (hg : ∀ a, g (f a) = some (h a)) (as : List α) : (as.map f).mapM g = some (as.map h) := by
  induction as with
  | nil => rfl
  | cons a as ih => simp [hg, ih]

/-! ## §2 Rows of the JSON report -/

theorem Counter.mem_all (c : Counter) : c ∈ Counter.all := by cases c <;> decide

theorem Metrics.member?_toJson_count (m : Metrics) (c : Counter) :
    m.toJson.member? c.key = some (.nat (m.count c)) := by
  cases c <;> rfl

theorem Metrics.row?_toJson (m : Metrics) :
    m.toJson.row? ("type" :: Counter.all.map Counter.key) =
      some (m.type :: Counter.all.map fun c => toString (m.count c)) := by
  have hcounts : (Counter.all.map Counter.key).mapM
      (fun k => (m.toJson.member? k).bind Json.cell?) =
      some (Counter.all.map fun c => toString (m.count c)) :=
    mapM_map_eq_some (fun c => by rw [m.member?_toJson_count]; rfl) _
  have htype : (m.toJson.member? "type").bind Json.cell? = some m.type := rfl
  simp [Json.row?, htype, hcounts]

theorem Metrics.argumentRows?_toJson (m : Metrics) :
    m.toJson.argumentRows? = some (m.methodArgs.map fun e => [m.type, e.1, toString e.2]) := by
  have hargs : (Json.arr (m.methodArgs.map methodArgToJson)).rows? ["method", "arguments"] =
      some (m.methodArgs.map fun e => [e.1, toString e.2]) := by
    have hrow : ∀ e, (methodArgToJson e).row? ["method", "arguments"] =
        some [e.1, toString e.2] := fun _ => rfl
    exact mapM_map_eq_some hrow m.methodArgs
  have htype : m.toJson.member? "type" = some (.str m.type) := rfl
  have hmember : m.toJson.member? "method_args" =
      some (.arr (m.methodArgs.map methodArgToJson)) := rfl
  simp [Json.argumentRows?, htype, hmember, hargs, Json.cell?, Function.comp_def]

/-! ## §3 Tables -/

namespace Analysis

variable {a b : Analysis}

/-- What the table of the given kind tells is the same in two analyses. -/
def SameIn (a b : Analysis) : TableKind → Prop
  | .nodes => a.nodes = b.nodes
  | .edges => a.edges = b.edges
  | .report =>
    a.metrics.map (fun m => (m.type, m.count)) = b.metrics.map fun m => (m.type, m.count)
  | .methods =>
    a.metrics.flatMap (fun m => m.methodArgs.map (m.type, ·)) =
      b.metrics.flatMap fun m => m.methodArgs.map (m.type, ·)

/-- Every row has at least two fields. -/
theorem ne_singleton_of_mem_table {k : TableKind} {row : Csv.Row} (h : row ∈ a.table k) :
    row ≠ [""] := by
  have hlength : 2 ≤ row.length := by
    cases k <;>
      simp only [table, nodeTable, edgeTable, reportTable, methodTable, List.mem_cons, List.mem_map,
        List.mem_flatMap] at h
    case nodes => obtain rfl | ⟨n, -, rfl⟩ := h <;> simp
    case edges => obtain rfl | ⟨e, -, rfl⟩ := h <;> simp
    case report => obtain rfl | ⟨m, -, rfl⟩ := h <;> simp [Counter.all]
    case methods => obtain rfl | ⟨m, -, e, -, rfl⟩ := h <;> simp
  rintro rfl
  simp at hlength

/-- The text of a table is read back as its rows. -/
theorem parse_tableText (a : Analysis) (k : TableKind) : Csv.parse (a.tableText k) = a.table k :=
  Csv.parse_render fun _ h => ne_singleton_of_mem_table h

theorem tableText_eq_iff {k : TableKind} : a.tableText k = b.tableText k ↔ a.table k = b.table k :=
  Csv.render_inj (fun _ h => ne_singleton_of_mem_table h) fun _ h => ne_singleton_of_mem_table h

/-- The table of a kind tells all that it is about. -/
theorem table_eq_iff {k : TableKind} : a.table k = b.table k ↔ a.SameIn b k := by
  cases k with
  | nodes =>
    simp only [table, nodeTable, SameIn, List.cons.injEq, true_and]
    refine List.map_inj_right fun n n' h => ?_
    cases n
    cases n'
    simp_all [Nat.repr_inj]
  | edges =>
    simp only [table, edgeTable, SameIn, List.cons.injEq, true_and]
    refine List.map_inj_right fun e e' h => ?_
    cases e
    cases e'
    simp_all [Nat.repr_inj]
  | report =>
    -- a row is written from the type and its counts, and it tells both
    let written (e : TypeName × (Counter → Nat)) : Csv.Row :=
      e.1 :: Counter.all.map fun c => toString (e.2 c)
    have hwritten : ∀ e e', written e = written e' → e = e' := by
      intro e e' h
      simp only [written, List.cons.injEq, List.map_inj_left] at h
      have hcounts : e.2 = e'.2 := funext fun c => Nat.repr_inj.1 (h.2 c c.mem_all)
      exact Prod.ext h.1 hcounts
    have hrows : ∀ ms : List Metrics,
        ms.map (fun m => m.type :: Counter.all.map fun c => toString (m.count c)) =
          (ms.map fun m => (m.type, m.count)).map written := by
      simp [written]
    simp only [table, reportTable, SameIn, List.cons.injEq, true_and]
    rw [hrows, hrows]
    exact List.map_inj_right hwritten
  | methods =>
    let written (e : TypeName × String × Nat) : Csv.Row := [e.1, e.2.1, toString e.2.2]
    have hwritten : ∀ e e', written e = written e' → e = e' := by
      intro e e' h
      simp only [written, List.cons.injEq, and_true] at h
      exact Prod.ext h.1 (Prod.ext h.2.1 (Nat.repr_inj.1 h.2.2))
    have hrows : ∀ ms : List Metrics,
        ms.flatMap (fun m => m.methodArgs.map fun e => [m.type, e.1, toString e.2]) =
          (ms.flatMap fun m => m.methodArgs.map (m.type, ·)).map written := by
      simp [written, List.map_flatMap, Function.comp_def]
    simp only [table, methodTable, SameIn, List.cons.injEq, true_and]
    rw [hrows, hrows]
    exact List.map_inj_right hwritten

/-! ## §4 Files -/

theorem writeTables_eq {tree : FileTree} {files : List (TableKind × FilePath)}
    {written : List (Location × String)}
    (h : CommandLine.writeTables tree a files = (written, none)) :
    written = files.map fun e => (Location.ofPath e.2, a.tableText e.1) := by
  induction files generalizing tree written with
  | nil =>
    cases h
    rfl
  | cons e files ih =>
    obtain ⟨kind, path⟩ := e
    cases hwrite : tree.write path (Text.encode (a.tableText kind)) with
    | error fault =>
      simp only [CommandLine.writeTables, hwrite] at h
      cases h
    | ok tree' =>
      simp only [CommandLine.writeTables, hwrite] at h
      obtain ⟨rfl, hfault⟩ := Prod.mk.inj h
      have hrest : (CommandLine.writeTables tree' a files).1 = _ := ih (Prod.ext rfl hfault)
      rw [hrest]
      rfl

/-- Tables that are all written stand in the directory, each under its name. -/
theorem exportTables_eq {tree : FileTree} {directory : FilePath}
    {written : List (Location × String)}
    (h : CommandLine.exportTables tree a directory = (written, none)) :
    written =
      TableKind.all.map fun k => (Location.ofPath (directory.child k.fileName), a.tableText k) := by
  unfold CommandLine.exportTables at h
  cases hmake : tree.makeDirectory directory with
  | error fault =>
    rw [hmake] at h
    cases h
  | ok tree' =>
    rw [hmake] at h
    simpa [tablePaths, Function.comp_def] using writeTables_eq h

/-! ## §5 Both reports -/

/-- Read back, the text of each table is its headings and what the JSON report shows in the
    corresponding columns. -/
structure ReadsBack (a : Analysis) : Prop where
  nodes : ∃ rows, Csv.parse (a.tableText .nodes) = ["Id", "Label", "Connections"] :: rows ∧
    (a.toJson.member? "nodes").bind (Json.rows? ["id", "label", "connections"]) = some rows ∧
    rows.length = a.nodes.length
  edges : ∃ rows, Csv.parse (a.tableText .edges) = ["Source", "Target", "Weight"] :: rows ∧
    (a.toJson.member? "edges").bind (Json.rows? ["source", "target", "weight"]) = some rows ∧
    rows.length = a.edges.length
  report : ∃ rows,
    Csv.parse (a.tableText .report) = ("class" :: Counter.all.map Counter.label) :: rows ∧
    (a.toJson.member? "metrics").bind (Json.rows? ("type" :: Counter.all.map Counter.key)) =
      some rows ∧
    rows.length = a.metrics.length
  columns : ∃ ms, (a.toJson.member? "metrics").bind Json.items? = some ms ∧
    ∀ m ∈ ms, m.keys = "type" :: Counter.all.map Counter.key ++ ["method_args"]
  methods : ∃ ms tables, (a.toJson.member? "metrics").bind Json.items? = some ms ∧
    ms.mapM Json.argumentRows? = some tables ∧
    Csv.parse (a.tableText .methods) = ["Type", "Method", "Arguments"] :: tables.flatten

theorem readsBack (a : Analysis) : a.ReadsBack where
  nodes := by
    refine ⟨_, a.parse_tableText .nodes, ?_, List.length_map _⟩
    have hrow : ∀ n : Graph.NodeRow, n.toJson.row? ["id", "label", "connections"] =
        some [n.type, simpleName n.type, toString n.connections] := fun _ => rfl
    exact mapM_map_eq_some hrow a.nodes
  edges := by
    refine ⟨_, a.parse_tableText .edges, ?_, List.length_map _⟩
    have hrow : ∀ e : Graph.EdgeRow, e.toJson.row? ["source", "target", "weight"] =
        some [e.source, e.target, toString e.weight] := fun _ => rfl
    exact mapM_map_eq_some hrow a.edges
  report :=
    ⟨_, a.parse_tableText .report, mapM_map_eq_some Metrics.row?_toJson a.metrics,
      List.length_map _⟩
  columns := by
    refine ⟨a.metrics.map Metrics.toJson, rfl, ?_⟩
    intro m hm
    obtain ⟨m, -, rfl⟩ := List.mem_map.1 hm
    rfl
  methods := by
    refine ⟨a.metrics.map Metrics.toJson, _, rfl,
      mapM_map_eq_some Metrics.argumentRows?_toJson a.metrics, ?_⟩
    rw [parse_tableText, ← List.flatMap_def]
    rfl

/-- Whatever the strings in an analysis, its tables are read back from the files that they are
    written to: each is its headings and the rows that the JSON report shows in the same columns.
    The texts of a table are the same for two analyses exactly if the analyses are the same in what
    the table is about. -/
theorem tables_read_back (a : Analysis) :
    a.ReadsBack ∧
    (∀ tree directory written,
      CommandLine.exportTables tree a directory = (written, none) →
        written = TableKind.all.map fun k =>
          (Location.ofPath (directory.child k.fileName), a.tableText k)) ∧
    ∀ b k, a.tableText k = b.tableText k ↔ a.SameIn b k :=
  ⟨a.readsBack, fun _ _ _ h => exportTables_eq h, fun _ _ => tableText_eq_iff.trans table_eq_iff⟩

/-- An analysis with commas, quotation marks and line ends in its names, and with empty names. -/
def oddlyNamed : Analysis where
  depth := -1
  metrics := [{
    type := "a,\"b\"", methods := 2, constructors := 0, publicMethods := 0, privateMethods := 0,
    staticMethods := 0, abstractMethods := 0, nativeMethods := 0, synchronizedMethods := 0,
    finalMethods := 0, members := 0, publicMembers := 0, privateMembers := 0, protectedMembers := 0,
    staticMembers := 0, finalMembers := 0, interfaceTypes := 0, abstractTypes := 0,
    directAssociations := 1, indirectAssociations := 1,
    methodArgs := [("\r\n", 10), ("", 0)] }]
  unresolved := []
  nodes := [⟨"", 1⟩, ⟨"\"", 0⟩]
  edges := [⟨"a,\"b\"", "c\rd", 3⟩]

/-- The tables of such an analysis, written into a new directory. -/
theorem tables_read_back_oddlyNamed :
    ∃ written, CommandLine.exportTables {} oddlyNamed ⟨"", ["out"]⟩ = (written, none) ∧
      (["out", "methods.csv"],
        "Type,Method,Arguments\r\n\"a,\"\"b\"\"\",\"\r\n\",10\r\n\"a,\"\"b\"\"\",,0\r\n") ∈
          written ∧
      oddlyNamed.ReadsBack := by
  obtain ⟨hreads, hfiles, -⟩ := tables_read_back oddlyNamed
  have hexport : ∃ written,
      CommandLine.exportTables {} oddlyNamed ⟨"", ["out"]⟩ = (written, none) :=
    ⟨_, Prod.ext rfl (by decide +kernel)⟩
  obtain ⟨written, hwritten⟩ := hexport
  refine ⟨written, hwritten, ?_, hreads⟩
  rw [hfiles _ _ _ hwritten]
  decide +kernel

end Analysis

end TypeAtlas
