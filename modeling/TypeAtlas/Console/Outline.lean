import TypeAtlas.Console.Layout

/-!
# Outlines on a console

A tree of labels, drawn with lines of its own for every label and guides from each label to those
under it. The deeper a label stands, the fewer columns are left for it, and where none are left it
is not looked at.
-/

namespace TypeAtlas.Console

/-- A tree of labels. The labels are texts with tags. -/
inductive Outline where
  /-- A label with the trees under it. -/
  | node (label : String) (children : List Outline)
  deriving Repr, Inhabited

/-- The columns that a guide takes. -/
def guideWidth : Nat := 4

/-- Put one guide before the first line and another before all that follow. -/
def hang (first next : String) : List (List Char) → List (List Char)
  | [] => []
  | l :: ls => (first.toList ++ l) :: ls.map (next.toList ++ ·)

/-- Put a guide before the first line of a label and another before all other lines, of the label
    and below it. -/
def hangUnder (first next : String) (own below : List (List Char)) : List (List Char) :=
  hang first next own ++ below.map (next.toList ++ ·)

namespace Outline

mutual

/-- The lines of a tree on the given number of columns, those of its label and those below, if the
    tags in it are in order. -/
def parts? (symbols : Markup.Symbols) (columns : Nat) :
    Outline → Option (List (List Char) × List (List Char))
  | .node label children => do
    let own ← if columns = 0 then some [] else Console.lines? symbols columns label
    return (own, ← childLines? symbols (columns - guideWidth) children)

/-- The lines of the trees under a label, each tied to it by guides. -/
def childLines? (symbols : Markup.Symbols) (columns : Nat) :
    List Outline → Option (List (List Char))
  | [] => some []
  | [last] => do
    let (own, below) ← parts? symbols columns last
    return hangUnder "└── " "    " own below
  | child :: next :: rest => do
    let (own, below) ← parts? symbols columns child
    return hangUnder "├── " "│   " own below ++ (← childLines? symbols columns (next :: rest))

end

/-- The lines of a tree on the given number of columns, if the tags in it are in order. -/
def lines? (symbols : Markup.Symbols) (columns : Nat) (o : Outline) :
    Option (List (List Char)) :=
  (o.parts? symbols columns).map fun parts => parts.1 ++ parts.2

end Outline

end TypeAtlas.Console
