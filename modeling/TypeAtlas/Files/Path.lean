/-!
# File paths

A path is a way through directories, from the working directory or from a root. It is kept without
the parts that lead nowhere.
-/

namespace TypeAtlas

/-- A way to a file or directory. -/
structure FilePath where
  /-- Where the way begins: at the working directory if this is empty, and at a root otherwise. -/
  root : String := ""
  /-- The names of the steps. -/
  parts : List String := []
  deriving Repr, DecidableEq

namespace FilePath

/-- The parts of a text between slashes, given what the first part holds so far (last character
    first). -/
def splitFrom (acc : List Char) : List Char → List String
  | [] => [String.ofList acc.reverse]
  | '/' :: cs => String.ofList acc.reverse :: splitFrom [] cs
  | c :: cs => splitFrom (c :: acc) cs

/-- The root that a text begins with. Two slashes are a root of their own; one slash and three or
    more are the common one. -/
def rootOf : List Char → String
  | '/' :: '/' :: '/' :: _ => "/"
  | '/' :: '/' :: _ => "//"
  | '/' :: _ => "/"
  | _ => ""

/-- Whether a part leads to another place. -/
def isStep (part : String) : Bool := part != "" && part != "."

/-- The path that a text describes. -/
def ofString (s : String) : FilePath where
  root := rootOf s.toList
  parts := (splitFrom [] s.toList).filter isStep

/-- The text of a path. -/
def text (p : FilePath) : String :=
  match p.root, p.parts with
  | "", [] => "."
  | root, parts => root ++ "/".intercalate parts

/-- The path of the given name in the directory of a path. -/
def child (p : FilePath) (name : String) : FilePath := { p with parts := p.parts ++ [name] }

end FilePath

end TypeAtlas
