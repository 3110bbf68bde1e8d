import TypeAtlas.Ordered.Entries
import TypeAtlas.Ordered.Map
import TypeAtlas.Step

/-!
# The store of the dependency graph

The graph is kept as a dictionary of sets: under the name of each referenced type stands the set of
the types that reference it. To write to a set is to fetch it, and a name that has none gets an
empty one by that. To read is to look, which leaves nothing behind. So a name may have an empty set
as far as the dictionary is concerned; that the store never comes to hold one, and that it answers
as the plain set of edges does, is for proofs.
-/

namespace TypeAtlas

/-! ## §1 Dictionaries of sets -/

/-- Sets under names. The names stand in the order in which they came in, and the set of a name may
    be empty. -/
structure SetDict where
  /-- The names that have a set, each with its set. -/
  entries : Entries NameSet
  /-- A name has one set. -/
  nodup : (entries.map Prod.fst).Nodup

namespace SetDict

/-- The dictionary without names. -/
def empty : SetDict := ⟨[], List.nodup_nil⟩

/-- The set of a name, for a reader. -/
def get? (d : SetDict) (n : TypeName) : Option NameSet := d.entries.get? n

/-- Write the set of a name. -/
def put (d : SetDict) (n : TypeName) (s : NameSet) : SetDict where
  entries := d.entries.put n s
  nodup := by
    rw [Entries.names_put]
    split
    · exact d.nodup
    · next hn =>
      -- a name that comes last was not there before
      refine List.nodup_append.2 ⟨d.nodup, by simp, ?_⟩
      intro k hk k' hk' heq
      rw [heq, List.mem_singleton.1 hk'] at hk
      exact hn hk

/-- The set of a name, for a writer: a name that has none gets an empty one. -/
def fetch (n : TypeName) : StateM SetDict NameSet := do
  match (← get).get? n with
  | some s => return s
  | none =>
    modify fun d => d.put n ∅
    return ∅

/-- Add a member to the set of a name. -/
def add (n member : TypeName) : StateM SetDict Unit := do
  let s ← fetch n
  modify fun d => d.put n (s.insert member)

/-- The number of names that have a set. -/
def size (d : SetDict) : Nat := d.entries.length

/-- The dictionary as a map, whose entries stand in the order of the names. -/
def toMap (d : SetDict) : OrdMap TypeName NameSet :=
  d.entries.foldr (fun e m => m.insert e.1 e.2) ∅

/-- The names with their sets, in the order of the names. -/
def sorted (d : SetDict) : List (TypeName × NameSet) := d.toMap.entries

end SetDict

/-! ## §2 The store -/

/-- What the store of the graph holds. -/
structure GraphStore where
  /-- The referenced types, each with the types that reference it. -/
  referrers : SetDict := .empty
  /-- The types that an analysis was asked for. -/
  roots : NameSet := ∅

namespace GraphStore

/-- A store that holds nothing. -/
def empty : GraphStore := {}

/-- Work on the dictionary. -/
def onReferrers (write : StateM SetDict Unit) : StateM GraphStore Unit :=
  modify fun st => { st with referrers := (write.run st.referrers).2 }

/-- Record that `referrer` references `referenced`. An edge from a type to itself is turned away
    before any set is fetched. -/
def addEdge (referenced referrer : TypeName) : StateM GraphStore Unit :=
  if referenced = referrer then return () else onReferrers (SetDict.add referenced referrer)

/-- Record that `referrer` references each of the given types, one by one. -/
def addAll (referenced : List TypeName) (referrer : TypeName) : StateM GraphStore Unit :=
  referenced.forM fun t => addEdge t referrer

/-- Mark a type as one that an analysis was asked for. -/
def addRoot (t : TypeName) : StateM GraphStore Unit :=
  modify fun st => { st with roots := st.roots.insert t }

/-- Whether an analysis was asked for the type. -/
def isRoot (t : TypeName) : StateM GraphStore Bool := do
  return t ∈ (← get).roots

/-- The types that reference the given one: nothing for a type without a set. -/
def referrersOf (t : TypeName) : StateM GraphStore NameSet := do
  return ((← get).referrers.get? t).getD ∅

/-- The number of types that reference the given one: zero for a type without a set, and for one
    whose set is empty. -/
def connectionCount (t : TypeName) : StateM GraphStore Nat := do
  let found := (← get).referrers.get? t
  return match found with
    | some s => if s = ∅ then 0 else s.size
    | none => 0

/-- Whether the type has a set, be it empty. -/
def contains (t : TypeName) : StateM GraphStore Bool := do
  return ((← get).referrers.get? t).isSome

/-- The number of types that have a set. -/
def size : StateM GraphStore Nat := do
  return (← get).referrers.size

/-- The table of nodes: a row for each type that has a set. -/
def nodeRows : StateM GraphStore (List Graph.NodeRow) := do
  return (← get).referrers.sorted.map fun (t, s) => ⟨t, s.size⟩

/-- The row of an edge, unless it leads from a type to itself or lacks a name at one end. -/
def edgeRow? (roots : NameSet) (target source : TypeName) : Option Graph.EdgeRow :=
  if source = target || source = "" || target = "" then none
  else some ⟨source, target, if source ∈ roots then Graph.rootEdgeWeight else Graph.plainEdgeWeight⟩

/-- The table of edges: set by set, and member by member within a set. -/
def edgeRows : StateM GraphStore (List Graph.EdgeRow) := do
  let st ← get
  return st.referrers.sorted.flatMap fun (target, s) =>
    s.toList.filterMap (edgeRow? st.roots target)

/-- Take a step. -/
def step : GraphStep → StateM GraphStore GraphAnswer
  | .addEdge referenced referrer => do
    addEdge referenced referrer
    return .done
  | .addAll referenced referrer => do
    addAll referenced referrer
    return .done
  | .addRoot t => do
    addRoot t
    return .done
  | .isRoot t => return .truth (← isRoot t)
  | .contains t => return .truth (← contains t)
  | .roots => return .names (← get).roots.toList
  | .referrers t => return .names (← referrersOf t).toList
  | .connectionCount t => return .count (← connectionCount t)
  | .size => return .count (← size)
  | .nodes => return .nodes (← nodeRows)
  | .edges => return .edges (← edgeRows)

/-- The answer to a step. -/
def answer (st : GraphStore) (s : GraphStep) : GraphAnswer := ((step s).run st).1

/-- The store after a step. -/
def after (st : GraphStore) (s : GraphStep) : GraphStore := ((step s).run st).2

/-- The store after a sequence of steps. -/
def afterAll (st : GraphStore) (steps : List GraphStep) : GraphStore := steps.foldl after st

end GraphStore

end TypeAtlas
