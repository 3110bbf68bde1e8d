import TypeAtlas.CommandLine.Outcome

/-!
# The program

The command line of the library. It looks at the files that a command line names, computes the
outcome, and makes it happen.
-/

namespace TypeAtlas.CommandLine

/-! ## §1 Looking at files -/

/-- The paths on the way to a path, itself included. -/
def pathsTo (p : FilePath) : List FilePath :=
  (List.range (p.parts.length + 1)).map fun n => { p with parts := p.parts.take n }

/-- The paths that an invocation reads from or writes to, given the settings if they are known. -/
def Invocation.paths (i : Invocation) (config : Config) : List FilePath :=
  let ofRequest := match i.request with
    | .analyze roots _ output => roots :: output.toList
    | .query _ _ => []
  let named := i.sources.config.toList ++ i.sources.schema.toList ++
    (config.schemaPath.map FilePath.ofString).toList
  (FilePath.ofString config.outputDir :: named ++ ofRequest).flatMap pathsTo

/-- The tree with what stands at a path. What is there and cannot be read is a directory. -/
def lookAt (tree : FileTree) (p : FilePath) : IO FileTree := do
  let here := Location.ofPath p
  try
    let content ← IO.FS.readBinFile p.text
    return { tree with files := tree.files ++ [(here, content.toList)] }
  catch
    | .noFileOrDirectory .. => return tree
    | _ => return { tree with directories := tree.directories ++ [here] }

/-- The files that an invocation can see. Those that its settings name are looked at once the
    settings are known. -/
def lookAround (i : Invocation) : IO FileTree := do
  let tree ← (i.paths {}).foldlM lookAt {}
  match i.sources.settings { tree } with
  | .ok config => (i.paths config).foldlM lookAt {}
  | .error _ => return tree

/-- The console, which is as wide as the environment says. -/
def console : IO Console.Device := do
  match ((← IO.getEnv "COLUMNS").bind String.toNat?) with
  | some columns => return { columns }
  | none => return {}

/-! ## §2 Making it happen -/

/-- The words for a command that breaks off. -/
def Crash.message : Crash → String
  | .output .brokenMarkup => "a closing tag has nothing to close"
  | .output .tooDeep => "too many levels"
  | .notText => "a file is not valid UTF-8"
  | .tooNested => "a file is nested too deep"
  | .file .missing => "no such file or directory"
  | .file .isDirectory => "is a directory"
  | .file .throughFile => "not a directory"
  | .file .occupied => "file exists"
  | .failure f => f.message?.getD "a module cannot be imported"

/-- Write a file, with the directories that it needs. -/
def writeFile (l : Location) (text : String) : IO Unit := do
  let path := "/".intercalate l
  if 1 < l.length then IO.FS.createDirAll ("/".intercalate l.dropLast)
  IO.FS.writeFile path text

/-- Make an outcome happen. -/
def Outcome.perform (o : Outcome) : IO UInt32 := do
  for line in o.log do
    IO.eprintln line
  for (l, text) in o.written do
    writeFile l text
  IO.print o.output
  match o.crash with
  | none => pure ()
  | some c => IO.eprintln ("error: " ++ c.message)
  return o.status.toUInt32

/-- How to use the program. -/
def usage : String :=
  "usage: typeatlas COMMAND OPERAND [OPTION]...\n" ++
  "commands: " ++ ", ".intercalate (Command.all.map Command.name)

end TypeAtlas.CommandLine

open TypeAtlas.CommandLine in
/-- The program: answers the question on its command line. -/
def main (args : List String) : IO UInt32 := do
  match Invocation.ofWords? args with
  | none =>
    IO.eprintln usage
    return misuseStatus.toUInt32
  | some i => (i.outcome { tree := ← lookAround i, device := ← console }).perform
