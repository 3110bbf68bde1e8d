/-!
# Comma-separated values

A table as text: the fields of a row stand between commas, and every row ends with a carriage
return and a line feed. A field that holds a comma, a quotation mark or a line end is put between
quotation marks, and each quotation mark in it is doubled.
-/

namespace TypeAtlas.Csv

/-- A row of fields. -/
abbrev Row := List String

/-- Whether a field with this character has to be put between quotation marks. -/
def isSpecial (c : Char) : Bool := c == ',' || c == '"' || c == '\r' || c == '\n'

/-- Double a quotation mark. -/
def double (c : Char) : List Char := if c = '"' then ['"', '"'] else [c]

/-- The written form of a field. -/
def field (s : String) : List Char :=
  if s.toList.any isSpecial then '"' :: s.toList.flatMap double ++ ['"'] else s.toList

/-- The written form of a row. -/
def row (fs : Row) : List Char := List.intercalate [','] (fs.map field) ++ ['\r', '\n']

/-- The written form of a table. -/
def render (rows : List Row) : String := String.ofList (rows.flatMap row)

end TypeAtlas.Csv
