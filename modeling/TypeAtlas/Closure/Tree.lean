import TypeAtlas.Closure.Exploration

/-!
# Closure trees

An exploration arranged as a tree: every type stands under the type through which it was found, and
the types found through one type stand in the order of their names. The root itself is no entry.

A tree is made without recursion, but what is made of one is: its entries are counted, converted and
drawn level by level, with calls inside calls. So a tree with more levels than the call stack has
room for cannot be told.
-/

namespace TypeAtlas

/-- A type in a closure tree, with all that was found through it. -/
inductive ClosureEntry where
  /-- The entry of `type`, found at `depth`. It may be expanded or not, and it is unresolved if it
      could not be described. -/
  | node (type : TypeName) (depth : Nat) (expanded unresolved : Bool)
      (children : List ClosureEntry)
  deriving Repr, Inhabited

namespace ClosureEntry

variable {α : Type} (form : TypeName → Nat → Bool → Bool → List α → α)

mutual

/-- What a recursion makes of an entry, given what it makes of the parts of one and of its children,
    if there is room for as many calls inside each other as the tree has levels. -/
def fold? : (room : Nat) → ClosureEntry → Option α
  | 0, _ => none
  | room + 1, .node type depth expanded unresolved children =>
    (foldAll? room children).map (form type depth expanded unresolved)

/-- What a recursion makes of the entries of a list, one by one. -/
def foldAll? : (room : Nat) → List ClosureEntry → Option (List α)
  | _, [] => some []
  | room, e :: rest => do return (← fold? room e) :: (← foldAll? room rest)

end

/-- The number of entries in trees, given the number in each. -/
def total (counts : List Nat) : Nat := counts.foldr (· + ·) 0

/-- The number of entries in an entry and under it, given the numbers of those under it. -/
def countForm (_ : TypeName) (_ : Nat) (_ _ : Bool) (counts : List Nat) : Nat := 1 + total counts

/-- The number of entries in a list of trees, if there is room to count them. -/
def count? (room : Nat) (es : List ClosureEntry) : Option Nat :=
  (foldAll? countForm room es).map total

end ClosureEntry

/-- For how many levels of a tree the call stack has room, in each of the recursions over it. -/
structure CallStack where
  /-- To count the entries. -/
  counting : Nat := 960
  /-- To convert the entries and to write what becomes of them, with two calls for each level. -/
  converting : Nat := 480
  /-- To draw the entries. -/
  drawing : Nat := 960

namespace Exploration

/-- The distance of a type from the root. -/
def depthOf (x : Exploration) (t : TypeName) : Nat :=
  ((x.depths.find? fun e => e.1 == t).map Prod.snd).getD 0

/-- The types found through the given one, in the order of their names. -/
def foundThrough (x : Exploration) (parent : TypeName) : NameSet :=
  OrdSet.ofList ((x.parents.filter fun e => e.2 == parent).map Prod.fst)

/-- The trees under a type, of `height` levels at most. -/
def entriesUnder (x : Exploration) : Nat → TypeName → List ClosureEntry
  | 0, _ => []
  | height + 1, parent =>
    (x.foundThrough parent).toList.map fun t =>
      .node t (x.depthOf t) (x.adjacency.expands t) (t ∈ x.unresolved) (x.entriesUnder height t)

/-- The trees under the root. No path in them is longer than the number of types that were found. -/
def entries (x : Exploration) : List ClosureEntry := x.entriesUnder x.parents.length x.root

end Exploration

/-- What a walk found out, arranged as a tree. -/
structure ClosureTree where
  /-- Where the walk began. -/
  target : TypeName
  /-- How far it went on. -/
  bound : Bound
  /-- The types reached from the target, itself apart. -/
  types : NameSet
  /-- The trees under the target. -/
  entries : List ClosureEntry
  /-- The types that could not be described. -/
  unresolved : NameSet

/-- The tree of an exploration. -/
def ClosureTree.ofExploration (x : Exploration) : ClosureTree where
  target := x.root
  bound := x.bound
  types := x.types
  entries := x.entries
  unresolved := x.unresolved

/-- The closure of a type as a tree. -/
def Context.closureTree {σ : Type} (ctx : Context σ) (root : TypeName) (depth : Option Int) :
    Run σ ClosureTree :=
  return .ofExploration (← ctx.explore root (ctx.depthOr depth))

end TypeAtlas
