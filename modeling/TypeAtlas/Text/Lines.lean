/-!
# Lines

A text is read as lines. A line ends at a line feed, at a carriage return, or at a carriage return
and line feed taken together; no other character ends a line. What follows the last line end is a
line of its own unless it is empty.
-/

namespace TypeAtlas.Text

/-- The lines of a text, without their ends, given what the current line holds so far (last
    character first). -/
def linesFrom (acc : List Char) : List Char → List (List Char)
  | [] => if acc.isEmpty then [] else [acc.reverse]
  | '\r' :: '\n' :: cs => acc.reverse :: linesFrom [] cs
  | '\r' :: cs => acc.reverse :: linesFrom [] cs
  | '\n' :: cs => acc.reverse :: linesFrom [] cs
  | c :: cs => linesFrom (c :: acc) cs

/-- The lines of a text, without their ends. -/
def lines (s : String) : List String := (linesFrom [] s.toList).map String.ofList

end TypeAtlas.Text
