import TypeAtlas.Files.Path
import TypeAtlas.Text.Quoted
import TypeAtlas.Text.Utf8

/-!
# File trees

The files and directories that a command can see, as they stand when it begins. A command reads
from a tree and gives back the tree with what it has written.
-/

namespace TypeAtlas

/-! ## §1 Locations -/

/-- A place in a file tree: the names on the way to it from the working directory, or from a root
    if the first name is one. -/
abbrev Location := List String

namespace Location

/-- The name of the step to the directory above. -/
def above : String := ".."

/-- Where a step leads from a directory. Above a root there is the root again. -/
def step (l : Location) (name : String) : Location :=
  if name = above then
    match l.getLast? with
    | none => [above]
    | some last =>
      if last = above then l ++ [above]
      else if l.length = 1 && last.startsWith "/" then l
      else l.dropLast
  else l ++ [name]

/-- Where a path begins. -/
def start (p : FilePath) : Location := if p.root = "" then [] else [p.root]

/-- The place that a path leads to, if there is one. -/
def ofPath (p : FilePath) : Location := p.parts.foldl step (start p)

end Location

/-! ## §2 Faults -/

/-- Why a file or directory cannot be used. -/
inductive FileFault where
  /-- There is nothing at the path. -/
  | missing
  /-- There is a directory at the path. -/
  | isDirectory
  /-- The path leads through a file. -/
  | throughFile
  /-- There is a file at the path of a directory. -/
  | occupied
  deriving Repr, DecidableEq

/-- The words for a fault at the path of the given text. -/
def FileFault.message (fault : FileFault) (path : String) : String :=
  (match fault with
    | .missing => "[Errno 2] No such file or directory: "
    | .isDirectory => "[Errno 21] Is a directory: "
    | .throughFile => "[Errno 20] Not a directory: "
    | .occupied => "[Errno 17] File exists: ") ++ Text.quoted path

/-! ## §3 Trees -/

/-- Files and directories. -/
structure FileTree where
  /-- The files with what they hold. -/
  files : List (Location × Octets) := []
  /-- The directories that are known apart from those that files stand in. -/
  directories : List Location := []
  deriving Repr, DecidableEq

/-- What stands at a place. -/
inductive Standing where
  /-- A file with the given content. -/
  | file (content : Octets)
  /-- A directory. -/
  | directory
  /-- Nothing. -/
  | nothing
  deriving Repr, DecidableEq

namespace FileTree

/-- Whether a place is a directory: the working directory or one above it, a root, a known one, or
    one with a file in it. -/
def isDirectory (t : FileTree) (l : Location) : Bool :=
  l.all (· == Location.above) || (l.length == 1 && l.all (·.startsWith "/")) ||
    t.directories.any (fun d => l.isPrefixOf d) ||
    t.files.any (fun f => l.isPrefixOf f.1 && l != f.1)

/-- What stands at a place. -/
def look (t : FileTree) (l : Location) : Standing :=
  if t.isDirectory l then .directory
  else
    match t.files.lookup l with
    | some content => .file content
    | none => .nothing

/-- What a walk from a place comes to. -/
def walk (t : FileTree) (l : Location) : List String → Except FileFault Standing
  | [] => .ok (t.look l)
  | name :: rest =>
    match t.look l with
    | .directory => t.walk (l.step name) rest
    | .file _ => .error .throughFile
    | .nothing => .error .missing

/-- What a path leads to. -/
def find (t : FileTree) (p : FilePath) : Except FileFault Standing :=
  t.walk (Location.start p) p.parts

/-- Whether a path leads to a file or directory. -/
def holds (t : FileTree) (p : FilePath) : Bool :=
  match t.find p with
  | .ok (.file _) => true
  | .ok .directory => true
  | _ => false

/-- The content of the file at a path. -/
def read (t : FileTree) (p : FilePath) : Except FileFault Octets := do
  match ← t.find p with
  | .file content => .ok content
  | .directory => .error .isDirectory
  | .nothing => .error .missing

/-- The tree with the directories on the way from a place. -/
def makeWay (t : FileTree) (l : Location) : List String → Except FileFault FileTree
  | [] => .ok t
  | name :: rest =>
    let next := l.step name
    match t.look next with
    | .directory => t.makeWay next rest
    | .file _ => .error (if rest.isEmpty then .occupied else .throughFile)
    | .nothing => { t with directories := t.directories ++ [next] }.makeWay next rest

/-- The tree with the directory of a path, and with those on the way to it. -/
def makeDirectory (t : FileTree) (p : FilePath) : Except FileFault FileTree :=
  t.makeWay (Location.start p) p.parts

/-- The tree with the given file in an existing directory. -/
def write (t : FileTree) (p : FilePath) (content : Octets) : Except FileFault FileTree := do
  match ← t.find p with
  | .directory => .error .isDirectory
  | .file _ =>
    let here := Location.ofPath p
    .ok { t with files := t.files.map fun f => if f.1 = here then (f.1, content) else f }
  | .nothing => .ok { t with files := t.files ++ [(Location.ofPath p, content)] }

end FileTree

end TypeAtlas
