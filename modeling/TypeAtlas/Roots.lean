import TypeAtlas.Name
import TypeAtlas.Text.Blank
import TypeAtlas.Text.Lines
import TypeAtlas.Text.Utf8

/-!
# Lists of root types

The types to analyse are listed in a text file, one name on a line. Blanks around a name do not
count, and a line without a name or with a comment gives none.
-/

namespace TypeAtlas

/-- Whether a stripped line names a type: it is not empty, and it does not begin as a comment. -/
def isRootName (s : String) : Bool :=
  match s.toList with
  | [] => false
  | '#' :: _ => false
  | '/' :: '/' :: _ => false
  | _ => true

/-- The names that a text lists. -/
def rootNames (s : String) : List String :=
  ((Text.lines s).map Text.strip).filter isRootName

/-- The names that a file lists, if the file is well-formed text. -/
def rootNames? (bs : Octets) : Option (List String) := (Text.decode? bs).map rootNames

end TypeAtlas
