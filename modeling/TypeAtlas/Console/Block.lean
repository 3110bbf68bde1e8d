import TypeAtlas.Console.Outline
import TypeAtlas.Console.Table
import TypeAtlas.Json.Printer

/-!
# Blocks of output

What a command writes is a list of blocks: JSON documents, lines, tables and outlines. They are
written one after the other. A block with tags that are not in order is not written, nor is one that
could not be made because its parts are nested too deeply, and neither is anything after it.
-/

namespace TypeAtlas.Console

/-- A console: how wide it is, and what it makes of codes and of tables that are wider. -/
structure Device where
  /-- The number of its columns. -/
  columns : Nat := 80
  /-- The symbols that it knows. -/
  symbols : Markup.Symbols := .none
  /-- How the columns of a table share its width. -/
  sharing : Sharing := .none

/-- Something to be written at once. -/
inductive Block where
  /-- A JSON document, whatever its width. -/
  | json (v : Json)
  /-- A text with tags. -/
  | line (markup : String)
  /-- A table. -/
  | table (t : Table)
  /-- A tree of labels. -/
  | outline (o : Outline)
  /-- Something with too many levels, so that making it breaks off. -/
  | tooDeep

/-- Why a block is not written. -/
inductive Fault where
  /-- A closing tag has nothing to close. -/
  | brokenMarkup
  /-- It has too many levels. -/
  | tooDeep
  deriving Repr, DecidableEq

/-- Lines as one text, each with its end. -/
def unlines (ls : List (List Char)) : String := String.ofList (ls.flatMap (· ++ ['\n']))

/-- The text of lines, which there are if the tags are in order. -/
def told (ls : Option (List (List Char))) : Except Fault String :=
  match ls with
  | some ls => .ok (unlines ls)
  | none => .error .brokenMarkup

/-- The text of a block. -/
def Block.text (d : Device) : Block → Except Fault String
  | .json v => .ok (v.render ++ "\n")
  | .line markup => told (lines? d.symbols d.columns markup)
  | .table t => told (t.lines? d.symbols d.sharing d.columns)
  | .outline o => told (o.lines? d.symbols d.columns)
  | .tooDeep => .error .tooDeep

/-- What has been written of a list of blocks. -/
structure Written where
  /-- The text of the blocks before the first faulty one. -/
  text : String
  /-- What is wrong with that block, if there is one. -/
  fault : Option Fault
  deriving Repr, DecidableEq

/-- Write blocks one after the other, up to the first faulty one. -/
def write (d : Device) : List Block → Written
  | [] => ⟨"", none⟩
  | b :: rest =>
    match b.text d with
    | .error fault => ⟨"", some fault⟩
    | .ok text =>
      let after := write d rest
      { after with text := text ++ after.text }

end TypeAtlas.Console
