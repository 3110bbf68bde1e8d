import TypeAtlas.Closure.Reachable
import TypeAtlas.References

/-!
# Explorations

A walk from a root through direct references, nearest types first. A type is expanded when its
distance from the root is within the bound; one beyond the bound is reported and not expanded, and
one that cannot be described is reported as unresolved. The root is never part of its own closure.
-/

namespace TypeAtlas

/-! ## §1 The walk -/

/-- The state of a walk. -/
structure Walk where
  /-- The types still to be looked at, with their distances. -/
  queue : List (TypeName × Nat)
  /-- The expanded types with their references, in the order of expansion. -/
  adjacency : Adjacency := []
  /-- The types found with their distances, in the order of discovery. -/
  depths : List (TypeName × Nat)
  /-- The type through which each other type was found, in the order of discovery. -/
  parents : List (TypeName × TypeName) := []
  /-- The types that could not be described. -/
  unresolved : NameSet := ∅

namespace Walk

/-- The walk that has found its root and looked at nothing. -/
def start (root : TypeName) : Walk := { queue := [(root, 0)], depths := [(root, 0)] }

/-- Whether a type has been found. -/
def found (w : Walk) (t : TypeName) : Bool := w.depths.any fun e => e.1 == t

/-- The type through which a type was found. -/
def parent? (w : Walk) (t : TypeName) : Option TypeName :=
  (w.parents.find? fun e => e.1 == t).map Prod.snd

/-- Pass over the next type of the queue. -/
def pass (w : Walk) : Walk := { w with queue := w.queue.tail }

/-- Find `t` through `via`, unless it has been found before. A type is marked when it is queued, so
    none is queued twice. -/
def discover (via : TypeName) (depth : Nat) (w : Walk) (t : TypeName) : Walk :=
  if w.found t then w
  else
    { w with
      queue := w.queue ++ [(t, depth)]
      depths := w.depths ++ [(t, depth)]
      parents := w.parents ++ [(t, via)] }

/-- Expand the next type of the queue, which has the given references. -/
def expand (w : Walk) (current : TypeName) (depth : Nat) (references : NameSet) : Walk :=
  references.toList.foldl (discover current (depth + 1))
    { w.pass with adjacency := w.adjacency ++ [(current, references)] }

/-- Give up on the next type of the queue, which cannot be described. -/
def giveUp (w : Walk) (current : TypeName) : Walk :=
  { w.pass with unresolved := w.unresolved.insert current }

end Walk

/-- Everything that one walk found out. -/
structure Exploration where
  /-- Where the walk began. -/
  root : TypeName
  /-- How far it went on. -/
  bound : Bound
  /-- The types reached from the root, itself apart. -/
  types : NameSet
  /-- The expanded types with their references, in the order of expansion. -/
  adjacency : Adjacency
  /-- The types found with their distances, in the order of discovery, root first. -/
  depths : List (TypeName × Nat)
  /-- The type through which each other type was found, in the order of discovery. -/
  parents : List (TypeName × TypeName)
  /-- The types that could not be described. -/
  unresolved : NameSet

/-! ## §2 Exploring within a session -/

namespace Context

variable {σ : Type}

/-- Take one step of a walk whose queue begins with `current`. -/
def walkStep (ctx : Context σ) (root : TypeName) (bound : Bound) (w : Walk)
    (current : TypeName) (depth : Nat) : Run σ Walk := do
  if bound.admits depth then
    match ← Run.orUnresolved (ctx.directReferences current) with
    | .ok references => return w.expand current depth references
    | .error name =>
      if current = root then throw (.unresolved name)
      else
        Run.note (.skippingNeighbour current (w.parent? current))
        return w.giveUp current
  else return w.pass

/-- Walk on until the queue is empty, for `fuel` steps at most. -/
def walk (ctx : Context σ) (root : TypeName) (bound : Bound) : Nat → Walk → Run σ Walk
  | 0, w => return w
  | fuel + 1, w =>
    match w.queue with
    | [] => return w
    | (current, depth) :: _ => do
      let w ← ctx.walkStep root bound w current depth
      ctx.walk root bound fuel w

/-- The types that an expanded type is recorded to reach. -/
def reachedFrom (w : Walk) (root : TypeName) (types : NameSet) (t : TypeName) : NameSet :=
  if t = root then types else reachable w.adjacency t

/-- What every expanded type is recorded to reach, as edges. -/
def reachedEdges (w : Walk) (root : TypeName) (types : NameSet) : List Edge :=
  w.adjacency.flatMap fun e => (reachedFrom w root types e.1).toList.map fun t => ⟨t, e.1⟩

/-- Explore from a root, and record in the dependency graph what every expanded type reaches if
    the settings ask for it. -/
def exploreWithin (ctx : Context σ) (root : TypeName) (bound : Bound) : Run σ Exploration := do
  let fuel := ctx.provider.capacity (← get).memory + 2
  let w ← ctx.walk root bound fuel (.start root)
  let types := reachable w.adjacency root
  if ctx.config.transitiveEdges then
    Run.updateGraph fun g => g.addEdges (reachedEdges w root types)
  return { root, bound, types, adjacency := w.adjacency, depths := w.depths,
           parents := w.parents, unresolved := w.unresolved }

/-- Explore from a root to a depth, which has to be a bound. -/
def explore (ctx : Context σ) (root : TypeName) (depth : Int) : Run σ Exploration :=
  match Bound.ofInt? depth with
  | some bound => ctx.exploreWithin root bound
  | none => throw (.depthBelow depth)

/-- The depth that a question means: the one of the settings if it names none. -/
def depthOr (ctx : Context σ) (depth : Option Int) : Int := depth.getD ctx.config.depth.toInt

/-- The types associated with a root. -/
def closure (ctx : Context σ) (root : TypeName) (depth : Option Int) : Run σ NameSet :=
  return (← ctx.explore root (ctx.depthOr depth)).types

end Context

end TypeAtlas
