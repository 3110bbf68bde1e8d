import TypeAtlas.Json.Value

/-!
# Written JSON

A value is written over several lines, each level indented by two blanks, with a colon and a blank
between a key and its value. An empty array or object is written without a break. Strings hold
their characters as they are, apart from the quotation mark, the backslash and the controls below
the blank.
-/

namespace TypeAtlas.Json

/-! ## §1 Strings -/

/-- The hexadecimal digit of a number below sixteen. -/
def hexDigit (n : Nat) : Char :=
  if n < 10 then Char.ofNat (48 + n) else Char.ofNat (87 + n)

/-- The written form of one character of a string. -/
def escapeChar (c : Char) : List Char :=
  match c with
  | '"' => ['\\', '"']
  | '\\' => ['\\', '\\']
  | '\x08' => ['\\', 'b']
  | '\t' => ['\\', 't']
  | '\n' => ['\\', 'n']
  | '\x0c' => ['\\', 'f']
  | '\r' => ['\\', 'r']
  | c =>
    if c.toNat < 0x20 then ['\\', 'u', '0', '0', hexDigit (c.toNat / 16), hexDigit (c.toNat % 16)]
    else [c]

/-- A string between quotation marks. -/
def quote (s : String) : List Char := '"' :: s.toList.flatMap escapeChar ++ ['"']

/-! ## §2 Values -/

/-- A line break and the indentation of a level. -/
def newline (level : Nat) : List Char := '\n' :: List.replicate (2 * level) ' '

mutual

/-- The written form of a value that stands at the given level. -/
def print (level : Nat) : Json → List Char
  | .null => "null".toList
  | .bool true => "true".toList
  | .bool false => "false".toList
  | .int n => (toString n).toList
  | .decimal m e => (toString m).toList ++ 'e' :: (toString e).toList
  | .str s => quote s
  | .arr [] => ['[', ']']
  | .arr (x :: xs) =>
    '[' :: newline (level + 1) ++ print (level + 1) x ++ printItems (level + 1) xs ++
      newline level ++ [']']
  | .obj [] => ['\x7b', '\x7d']
  | .obj ((k, v) :: ms) =>
    '\x7b' :: newline (level + 1) ++ quote k ++ [':', ' '] ++ print (level + 1) v ++
      printMembers (level + 1) ms ++ newline level ++ ['\x7d']

/-- The items after the first, each behind a comma and on a line of its own. -/
def printItems (level : Nat) : List Json → List Char
  | [] => []
  | x :: xs => ',' :: newline level ++ print level x ++ printItems level xs

/-- The members after the first, each behind a comma and on a line of its own. -/
def printMembers (level : Nat) : List (String × Json) → List Char
  | [] => []
  | (k, v) :: ms =>
    ',' :: newline level ++ quote k ++ [':', ' '] ++ print level v ++ printMembers level ms

end

/-- The written form of a value. -/
def render (v : Json) : String := String.ofList (print 0 v)

end TypeAtlas.Json
