import TypeAtlas.Name

/-!
# Reachable types

The types that can be reached from a type over recorded references, found by a search with a stack
of types still to be looked at.
-/

namespace TypeAtlas

/-- The recorded references of types. A type without an entry is not expanded. -/
abbrev Adjacency := List (TypeName × NameSet)

namespace Adjacency

/-- The recorded references of a type, none if there is no record. -/
def next (adjacency : Adjacency) (t : TypeName) : List TypeName :=
  match adjacency.find? fun e => e.1 == t with
  | some e => e.2.toList
  | none => []

/-- Whether a type is expanded. -/
def expands (adjacency : Adjacency) (t : TypeName) : Bool := adjacency.any fun e => e.1 == t

end Adjacency

/-- The state of a search: what has been seen, and what is still to be looked at. -/
structure Search where
  /-- The types seen. -/
  seen : NameSet
  /-- The types to look at, next one first. A type may stand here more than once. -/
  stack : List TypeName

namespace Search

/-- Look at the next type of the stack; nothing is left to do when there is none. -/
def step (next : TypeName → List TypeName) (s : Search) : Option Search :=
  match s.stack with
  | [] => none
  | t :: stack =>
    if t ∈ s.seen then some { s with stack }
    else some { seen := s.seen.insert t, stack := next t ++ stack }

/-- Take steps until nothing is left to do, `fuel` of them at most. -/
def run (next : TypeName → List TypeName) : Nat → Search → Search
  | 0, s => s
  | fuel + 1, s =>
    match s.step next with
    | none => s
    | some s => run next fuel s

end Search

/-- The number of steps that a search from `start` takes at most: every entry's references are
    stacked once, and those of the start once more. -/
def searchFuel (adjacency : Adjacency) (start : TypeName) : Nat :=
  (adjacency.flatMap fun e => e.2.toList).length + (adjacency.next start).length

/-- The types other than `start` that can be reached from it over recorded references. -/
def reachable (adjacency : Adjacency) (start : TypeName) : NameSet :=
  (Search.run adjacency.next (searchFuel adjacency start + 1)
    ⟨∅, adjacency.next start⟩).seen.filter (· != start)

end TypeAtlas
