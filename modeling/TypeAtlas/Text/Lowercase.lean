import TypeAtlas.Text.Casing

/-!
# Lower-case text

The full lower-case form of a text. Most characters map to one partner. Two need more: the capital
I with a dot becomes an i and a combining dot, and a capital sigma at the end of a word becomes the
final form of the small sigma.
-/

namespace TypeAtlas.Text

/-- Capital sigma, the one character whose lower-case form depends on its neighbours. -/
def capitalSigma : Char := 'Σ'

/-- Whether the first character that a case rule does not pass over has case. -/
def meetsCased (cs : List Char) : Bool :=
  match cs.dropWhile isCaseIgnorable with
  | [] => false
  | c :: _ => isCased c

/-- The lower-case form of a character that stands after `before` (last character first) and before
    `after`. A word ends where a cased letter came before and none comes next. -/
def lowerAt (before : List Char) (c : Char) (after : List Char) : List Char :=
  if c == capitalSigma then
    if meetsCased before && !meetsCased after then ['ς'] else ['σ']
  else if c == 'İ' then ['i', '\u0307']
  else [lowerChar c]

/-- Lower-case forms of the remaining characters, given those already passed (last first). -/
def lowerFrom (before : List Char) : List Char → List Char
  | [] => []
  | c :: cs => lowerAt before c cs ++ lowerFrom (c :: before) cs

/-- The lower-case form of a text. -/
def lowercase (s : String) : String := String.ofList (lowerFrom [] s.toList)

end TypeAtlas.Text
