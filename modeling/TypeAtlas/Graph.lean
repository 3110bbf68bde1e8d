import TypeAtlas.Name

/-!
# The dependency graph

The graph holds which types were seen to reference which, and which types an analysis started from.
It only grows, and a type is never its own referrer.

Main statements: `mem_edges_addEdge`, `mem_edges_addEdges` and `mem_edges_addAll` say what the
writers do to the set of edges; every reading is defined on that set and on the set of roots.
-/

namespace TypeAtlas

/-! ## §1 Edges -/

/-- One type references another. -/
structure Edge where
  /-- The referenced type. -/
  target : TypeName
  /-- The type that references it. -/
  source : TypeName
  deriving Repr, DecidableEq

namespace Edge

/-- Edges are ordered by their target and then by their source. -/
instance : Ord Edge := ⟨compareLex (compareOn Edge.target) (compareOn Edge.source)⟩

instance : Std.TransOrd Edge :=
  inferInstanceAs (Std.TransCmp (compareLex (compareOn Edge.target) (compareOn Edge.source)))

theorem compare_eq (a b : Edge) :
    compare a b = (compare a.target b.target).then (compare a.source b.source) := rfl

instance : Std.LawfulEqOrd Edge where
  eq_of_compare := by
    rintro ⟨t, s⟩ ⟨t', s'⟩ h
    rw [compare_eq, Ordering.then_eq_eq] at h
    cases Std.LawfulEqCmp.eq_of_compare h.1
    cases Std.LawfulEqCmp.eq_of_compare h.2
    rfl
  compare_self := by simp

end Edge

/-! ## §2 The graph -/

/-- Which types reference which, and the roots of analyses. -/
structure Graph where
  /-- The edges. -/
  edges : OrdSet Edge := ∅
  /-- The types that an analysis was asked for. -/
  roots : NameSet := ∅
  deriving DecidableEq, Inhabited

namespace Graph

/-- A graph without edges and roots. -/
def empty : Graph := {}

/-- Record that `referrer` references `referenced`, unless they are the same type. -/
def addEdge (g : Graph) (referenced referrer : TypeName) : Graph :=
  if referenced = referrer then g
  else { g with edges := g.edges.insert ⟨referenced, referrer⟩ }

/-- Record the given edges, those from a type to itself apart. -/
def addEdges (g : Graph) (new : List Edge) : Graph :=
  { g with edges := (OrdSet.ofList (new.filter fun e => e.target != e.source)).union g.edges }

/-- Record that `referrer` references each of the given types, itself apart. -/
def addAll (g : Graph) (referenced : List TypeName) (referrer : TypeName) : Graph :=
  g.addEdges (referenced.map fun t => ⟨t, referrer⟩)

/-- Mark a type as one that an analysis was asked for. -/
def addRoot (g : Graph) (t : TypeName) : Graph := { g with roots := g.roots.insert t }

/-- Whether an analysis was asked for the type. -/
def isRoot (g : Graph) (t : TypeName) : Bool := t ∈ g.roots

/-- The edges into a type. -/
def edgesInto (g : Graph) (t : TypeName) : List Edge :=
  g.edges.toList.filter fun e => e.target == t

/-- The types that reference the given one, in order. -/
def referrers (g : Graph) (t : TypeName) : List TypeName := (g.edgesInto t).map Edge.source

/-- The number of types that reference the given one. -/
def connectionCount (g : Graph) (t : TypeName) : Nat := (g.referrers t).length

/-- Whether some type references the given one. -/
def contains (g : Graph) (t : TypeName) : Bool := g.edges.toList.any fun e => e.target == t

/-- The types that are referenced, each once, in order. The edges are ordered by target, so equal
    targets stand together. -/
def targets (g : Graph) : List TypeName := dedupRuns (g.edges.toList.map Edge.target)
where
  /-- Keep one of each run of equal elements. -/
  dedupRuns : List TypeName → List TypeName
    | [] => []
    | [a] => [a]
    | a :: b :: rest => if a = b then dedupRuns (b :: rest) else a :: dedupRuns (b :: rest)

/-- The number of types that are referenced. -/
def size (g : Graph) : Nat := g.targets.length

/-! ## §3 Tables -/

/-- A row of the table of nodes. -/
structure NodeRow where
  /-- A referenced type. -/
  type : TypeName
  /-- How many types reference it. -/
  connections : Nat
  deriving Repr, DecidableEq

/-- A row of the table of edges. -/
structure EdgeRow where
  /-- The type that references the other. -/
  source : TypeName
  /-- The referenced type. -/
  target : TypeName
  /-- Three for an edge that leaves a root, one for any other. -/
  weight : Nat
  deriving Repr, DecidableEq

/-- The weight of an edge that leaves a root. -/
def rootEdgeWeight : Nat := 3

/-- The weight of any other edge. -/
def plainEdgeWeight : Nat := 1

/-- The table of nodes: each referenced type with the number of types that reference it. -/
def nodeRows (g : Graph) : List NodeRow := g.targets.map fun t => ⟨t, g.connectionCount t⟩

/-- The row of an edge. -/
def edgeRow (g : Graph) (e : Edge) : EdgeRow :=
  ⟨e.source, e.target, if g.isRoot e.source then rootEdgeWeight else plainEdgeWeight⟩

/-- The table of edges, without those that lack a name at one end. -/
def edgeRows (g : Graph) : List EdgeRow :=
  (g.edges.toList.filter fun e => e.source != "" && e.target != "").map g.edgeRow

/-! ## §4 What the writers do -/

theorem mem_edges_addEdge {g : Graph} {a b : TypeName} {e : Edge} :
    e ∈ (g.addEdge a b).edges ↔ (a ≠ b ∧ e = ⟨a, b⟩) ∨ e ∈ g.edges := by
  rw [addEdge]
  split
  · next h => simp [h]
  · next h => simp [h]

theorem mem_edges_addEdges {g : Graph} {new : List Edge} {e : Edge} :
    e ∈ (g.addEdges new).edges ↔ (e ∈ new ∧ e.target ≠ e.source) ∨ e ∈ g.edges := by
  simp [addEdges]

theorem mem_edges_addAll {g : Graph} {ts : List TypeName} {b : TypeName} {e : Edge} :
    e ∈ (g.addAll ts b).edges ↔ (e.target ∈ ts ∧ e.target ≠ b ∧ e.source = b) ∨ e ∈ g.edges := by
  obtain ⟨t, s⟩ := e
  rw [addAll, mem_edges_addEdges]
  simp only [List.mem_map, Edge.mk.injEq]
  constructor
  · rintro (⟨⟨u, hu, rfl, rfl⟩, hne⟩ | h)
    · exact .inl ⟨hu, hne, rfl⟩
    · exact .inr h
  · rintro (⟨ht, hne, rfl⟩ | h)
    · exact .inl ⟨⟨t, ht, rfl, rfl⟩, hne⟩
    · exact .inr h

@[simp] theorem roots_addEdge (g : Graph) (a b : TypeName) :
    (g.addEdge a b).roots = g.roots := by
  rw [addEdge]
  split <;> rfl

@[simp] theorem edges_addRoot (g : Graph) (t : TypeName) : (g.addRoot t).edges = g.edges := rfl

@[simp] theorem roots_addEdges (g : Graph) (new : List Edge) :
    (g.addEdges new).roots = g.roots := rfl

@[simp] theorem roots_addAll (g : Graph) (ts : List TypeName) (b : TypeName) :
    (g.addAll ts b).roots = g.roots := rfl

end Graph

end TypeAtlas
