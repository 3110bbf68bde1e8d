import TypeAtlas.Console.Markup
import TypeAtlas.Text.Width

/-!
# Layout of text on a console

Text is placed on lines by the columns that its characters take: tabulators advance to the next
stop, and a text that is too wide for its place is broken between words, or within a word that is
too wide by itself.

Main statements: `width_padRight`, `width_padLeft` and `width_centred` say that a text that fits
fills its place exactly, whichever way it is aligned.
-/

namespace TypeAtlas.Console

open Text

/-! ## §1 Lines and tabulators -/

/-- The lines of a text, given what the first one holds so far (last character first). Each line
    feed ends a line, and what follows the last one is a line even if it is empty. -/
def splitFrom (acc : List Char) : List Char → List (List Char)
  | [] => [acc.reverse]
  | c :: cs => if c = '\n' then acc.reverse :: splitFrom [] cs else splitFrom (c :: acc) cs

/-- The distance between two stops of the tabulator. -/
def tabStop : Nat := 8

/-- The characters of a line from the given column on, with blanks for tabulators. -/
def withoutTabs (column : Nat) : List Char → List Char
  | [] => []
  | c :: cs =>
    if c = '\t' then
      let step := tabStop - column % tabStop
      List.replicate step ' ' ++ withoutTabs (column + step) cs
    else c :: withoutTabs (column + charWidth c) cs

/-! ## §2 Breaking -/

/-- Add a character to the words of a line, latest word and latest character first. A word holds
    the blanks behind it, and the first one also those before it. -/
def addToWords (words : List (List Char)) (c : Char) : List (List Char) :=
  match words with
  | [] => [[c]]
  | word :: rest =>
    if !isBlank c && word.head?.any isBlank && word.any (fun c => !isBlank c) then
      [c] :: word :: rest
    else (c :: word) :: rest

/-- The words of a line, each with the blanks behind it. -/
def words (line : List Char) : List (List Char) :=
  ((line.foldl addToWords []).map List.reverse).reverse

/-- Add a character to the chunks of a word, latest chunk and latest character first. -/
def addToChunks (columns : Nat) (chunks : List (List Char)) (c : Char) : List (List Char) :=
  match chunks with
  | [] => [[c]]
  | chunk :: rest =>
    if columns < width chunk + charWidth c then [c] :: chunk :: rest else (c :: chunk) :: rest

/-- The word cut into chunks that fit into the given number of columns. The first chunk is empty if
    not even the first character fits. -/
def chunks (columns : Nat) (word : List Char) : List (List Char) :=
  ((word.foldl (addToChunks columns) [[]]).map List.reverse).reverse

/-- The characters without the blanks at the end. -/
def trimEnd (cs : List Char) : List Char := (dropBlanks cs.reverse).reverse

/-- Add a word to the lines of a broken text, latest line first. It goes to the latest line if it
    fits there, and to a new line otherwise; if it is too wide for any line, it is cut. -/
def addWord (columns : Nat) (ls : List (List Char)) (word : List Char) : List (List Char) :=
  let own := width (trimEnd word)
  match ls with
  | [] =>
    if own ≤ columns then [word] else ((chunks columns word).dropWhile List.isEmpty).reverse
  | line :: rest =>
    if width line + own ≤ columns then (line ++ word) :: rest
    else if own ≤ columns then word :: line :: rest
    else (chunks columns word).reverse ++ line :: rest

/-- A line broken so that each part fits into the given number of columns, up to blanks at its
    end. -/
def broken (columns : Nat) (line : List Char) : List (List Char) :=
  match (words line).foldl (addWord columns) [] with
  | [] => [[]]
  | ls => ls.reverse

/-- The characters without those blanks at the end that are too many for the given number of
    columns, if each took one of them. -/
def trimExcess (columns : Nat) (cs : List Char) : List Char :=
  let blanksAtEnd := cs.length - (trimEnd cs).length
  cs.take (cs.length - min blanksAtEnd (cs.length - columns))

/-- Search for the beginning of a text that takes the given number of columns, between the lengths
    `low` and `high`. A character of two columns that is cut in half becomes a blank. -/
def cutSearch (columns : Nat) (cs : List Char) : (rounds low high : Nat) → List Char
  | 0, _, _ => []
  | rounds + 1, low, high =>
    let middle := (low + high) / 2
    let before := cs.take (middle + 1)
    if width before = columns + 1 && before.getLast?.any (fun c => charWidth c == 2) then
      before.dropLast ++ [' ']
    else if width before = columns then before
    else if columns < width before then cutSearch columns cs rounds low middle
    else cutSearch columns cs rounds middle high

/-- The text cut off where the columns end. -/
def cut (columns : Nat) (cs : List Char) : List Char :=
  if width cs ≤ columns then cs else cutSearch columns cs (cs.length + 1) 0 cs.length

/-- The lines that a line is laid out on. -/
def laidOut (columns : Nat) (line : List Char) : List (List Char) :=
  (broken columns line).map fun part => cut columns (trimExcess columns part)

/-- The lines that a text is laid out on. Nothing is shown where there are no columns. -/
def linesOf (columns : Nat) (cs : List Char) : List (List Char) :=
  if columns = 0 then []
  else (splitFrom [] cs).flatMap fun line => laidOut columns (withoutTabs 0 line)

/-! ## §3 Texts with tags -/

/-- The lines that a console shows of a text with tags on the given number of columns, if the tags
    are in order. -/
def lines? (symbols : Markup.Symbols) (columns : Nat) (markup : String) :
    Option (List (List Char)) :=
  (Markup.plainChars? symbols markup).map (linesOf columns)

/-! ## §4 Alignment -/

/-- A run of blanks. -/
def blanks (n : Nat) : List Char := List.replicate n ' '

/-- The text at the left of its place. -/
def padRight (columns : Nat) (cs : List Char) : List Char := cs ++ blanks (columns - width cs)

/-- The text at the right of its place. -/
def padLeft (columns : Nat) (cs : List Char) : List Char := blanks (columns - width cs) ++ cs

/-- The text in the middle of its place. The smaller half of what is free comes first. -/
def centred (columns : Nat) (cs : List Char) : List Char :=
  let cs := trimEnd cs
  let free := columns - width cs
  blanks (free / 2) ++ cs ++ blanks (free - free / 2)

@[simp] theorem width_blanks (n : Nat) : width (blanks n) = n := by
  induction n with
  | zero => rfl
  | succ n ih =>
    have h : charWidth ' ' = 1 := by decide
    simp only [blanks, List.replicate_succ, width_cons, h] at ih ⊢
    omega

/-- A text that fits fills its place when it stands at the left. -/
theorem width_padRight {columns : Nat} {cs : List Char} (h : width cs ≤ columns) :
    width (padRight columns cs) = columns := by
  simp only [padRight, width_append, width_blanks]
  omega

/-- A text that fits fills its place when it stands at the right. -/
theorem width_padLeft {columns : Nat} {cs : List Char} (h : width cs ≤ columns) :
    width (padLeft columns cs) = columns := by
  simp only [padLeft, width_append, width_blanks]
  omega

/-- A text that fits fills its place when it stands in the middle. -/
theorem width_centred {columns : Nat} {cs : List Char} (h : width (trimEnd cs) ≤ columns) :
    width (centred columns cs) = columns := by
  simp only [centred, width_append, width_blanks]
  omega

end TypeAtlas.Console
