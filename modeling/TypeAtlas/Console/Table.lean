import TypeAtlas.Console.Layout

/-!
# Tables on a console

A table is drawn with a heavy frame around its headings and a light one around its rows. Every
column is as wide as its widest cell, with a blank on both sides. If that is more than the console
has, the columns are made narrower and the texts in them are broken. The cells of the first column
stand at the left and all others at the right. A title stands over the middle of the table and is
broken if it is wider.
-/

namespace TypeAtlas.Console

/-- A table. Title and cells are texts with tags. -/
structure Table where
  /-- The title, empty for a table without one. -/
  title : String := ""
  /-- The headings of the columns. -/
  headings : List String
  /-- The rows below the headings. -/
  rows : List (List String)
  deriving Repr, DecidableEq

/-- The characters of which a horizontal line of the frame consists. -/
structure Rule where
  /-- At the left end. -/
  left : Char
  /-- Along a column. -/
  along : Char
  /-- Between two columns. -/
  between : Char
  /-- At the right end. -/
  right : Char

/-- The line above the headings. -/
def topRule : Rule := ⟨'┏', '━', '┳', '┓'⟩

/-- The line below the headings. -/
def headRule : Rule := ⟨'┡', '━', '╇', '┩'⟩

/-- The line below the rows. -/
def bottomRule : Rule := ⟨'└', '─', '┴', '┘'⟩

/-- The separator of the headings. -/
def headBar : Char := '┃'

/-- The separator of the cells of a row. -/
def bodyBar : Char := '│'

/-- What a cell shows: its lines. -/
abbrev Cell := List (List Char)

/-- The columns that a cell takes without the blanks at its sides. -/
def Cell.width (c : Cell) : Nat := (c.map Text.width).foldl max 0

/-- The widths of the columns of a table. -/
def columnWidths : (rows : List (List Cell)) → List Nat
  | [] => []
  | row :: rows =>
    rows.foldl (fun ws row => List.zipWith max ws (row.map Cell.width)) (row.map Cell.width)

/-- A horizontal line of the frame. -/
def Rule.draw (r : Rule) (widths : List Nat) : List Char :=
  r.left :: ([r.between].intercalate (widths.map fun w => List.replicate (w + 2) r.along)) ++
    [r.right]

/-- The texts of one line between separators, the first at the left and the others at the right of
    their columns. -/
def drawLine (bar : Char) (widths : List Nat) (texts : List (List Char)) : List Char :=
  let pads := padRight :: List.replicate (widths.length - 1) padLeft
  let padded := List.zipWith (fun pad wt => pad wt.1 wt.2) pads (widths.zip texts)
  bar :: ' ' :: [' ', bar, ' '].intercalate padded ++ [' ', bar]

/-- A row of cells, on as many lines as its highest cell has. -/
def drawRow (bar : Char) (widths : List Nat) (row : List Cell) : List (List Char) :=
  let height := (row.map List.length).foldl max 0
  (List.range height).map fun i => drawLine bar widths (row.map fun cell => (cell[i]?).getD [])

/-- The lines of a title over a table of the given width. -/
def titleLines (columns : Nat) (title : Cell) : List (List Char) :=
  (title.flatMap (broken columns)).map (centred columns)

/-- The width of a table with columns of the given widths. -/
def frameWidth (widths : List Nat) : Nat := (topRule.draw widths).length

/-- How the columns of a table share a console that is not wide enough for the table. -/
structure Sharing where
  /-- The widths of the columns on a console of so many columns, given the widths that they would
      need. -/
  widths : Nat → List Nat → List Nat
  /-- A table that fits gets what it needs. -/
  widths_of_le : ∀ columns needed, frameWidth needed ≤ columns → widths columns needed = needed

/-- Tables get what they need, even if it is more than there is. -/
def Sharing.none : Sharing := ⟨fun _ needed => needed, fun _ _ _ => rfl⟩

instance : Inhabited Sharing := ⟨Sharing.none⟩

/-- The lines of a text with tags, as wide as they come. -/
def freeLines? (symbols : Markup.Symbols) (markup : String) : Option Cell :=
  (Markup.plainChars? symbols markup).map fun cs => (splitFrom [] cs).map (withoutTabs 0)

/-- A row of cells, each laid out in its column. -/
def layOutRow (widths : List Nat) (row : List Cell) : List Cell :=
  List.zipWith (fun width cell => cell.flatMap (laidOut width)) widths row

/-- The lines of a table on the given number of columns, if the tags in it are in order. -/
def Table.drawn? (symbols : Markup.Symbols) (sharing : Sharing) (columns : Nat) (t : Table) :
    Option (List (List Char)) := do
  let title ← if t.title = "" then some [] else freeLines? symbols t.title
  let headings ← t.headings.mapM (freeLines? symbols)
  let rows ← t.rows.mapM fun row => row.mapM (freeLines? symbols)
  let widths := sharing.widths columns (columnWidths (headings :: rows))
  let draw (bar : Char) (row : List Cell) := drawRow bar widths (layOutRow widths row)
  return titleLines (frameWidth widths) title ++
    topRule.draw widths :: draw headBar headings ++
    headRule.draw widths :: rows.flatMap (draw bodyBar) ++ [bottomRule.draw widths]

/-- The lines of a table on a console, which are none if there are no columns. -/
def Table.lines? (symbols : Markup.Symbols) (sharing : Sharing) (columns : Nat) (t : Table) :
    Option (List (List Char)) :=
  if columns = 0 then some [] else t.drawn? symbols sharing columns

end TypeAtlas.Console
