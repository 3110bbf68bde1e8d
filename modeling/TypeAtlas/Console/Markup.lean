import TypeAtlas.Text.Lowercase
import TypeAtlas.Text.Blank

/-!
# Markup

Lines for a console are written with tags in square brackets. A tag begins with a small letter, a
hash, a slash or an at sign, and it holds no further opening bracket; any other bracket is plain
text. An opening tag stays open until it is closed by name, or as the latest one, or the text ends.
A backslash before a tag makes it plain text, and two of them stand for one. In the plain text
between tags, a name between colons is a code for a symbol if the console knows a symbol of that
name.

The console has no styles, so of the tags only the fault remains: a closing tag with nothing to
close makes the whole text unprintable.

Main statement: `settle?_piecesFrom_of_literal` says that a text without opening brackets and
backslashes is shown as it is.
-/

namespace TypeAtlas.Markup

/-! ## §1 Tags -/

/-- A tag of a text. -/
inductive Tag where
  /-- Opens the style of the given name. -/
  | opening (name : String)
  /-- Closes the latest open style of the given name. -/
  | closing (name : String)
  /-- Closes the latest open style. -/
  | closingLatest
  deriving Repr, DecidableEq

/-- The styles that have a short name. -/
def shortStyleNames : List (String × String) :=
  [("b", "bold"), ("d", "dim"), ("i", "italic"), ("u", "underline"), ("r", "reverse"),
   ("c", "conceal"), ("s", "strike"), ("uu", "underline2"), ("o", "overline")]

/-- The one name of a style: neither case nor the blanks around it count, and a short name stands
    for the long one. -/
def styleName (cs : List Char) : String :=
  let written := Text.lowercase (Text.strip (String.ofList cs))
  (shortStyleNames.lookup written).getD written

/-- The tag with the given text between its brackets. What follows an equals sign is an argument of
    the style and no part of its name. -/
def Tag.ofBody (body : List Char) : Tag :=
  match body.takeWhile (· != '=') with
  | '/' :: name =>
    if (Text.stripChars name).isEmpty then .closingLatest else .closing (styleName name)
  | name => .opening (styleName name)

/-- Whether a tag may begin with the given character. -/
def isTagStart (c : Char) : Bool :=
  (97 ≤ c.toNat && c.toNat ≤ 122) || c == '#' || c == '/' || c == '@'

/-- The characters up to the next closing bracket, if no opening one comes first. -/
def upToBracket? : List Char → Option (List Char)
  | [] => none
  | ']' :: _ => some []
  | '[' :: _ => none
  | c :: cs => (upToBracket? cs).map (c :: ·)

/-- The text between the brackets of the tag whose opening bracket has just been passed, if there
    is a tag. -/
def tagBody? : List Char → Option (List Char)
  | [] => none
  | c :: cs => if isTagStart c then (upToBracket? cs).map (c :: ·) else none

/-! ## §2 Pieces -/

/-- A part of a text. -/
inductive Piece where
  /-- Plain text, which goes on in the next piece if that is plain as well. -/
  | plain (cs : List Char)
  /-- A tag made plain, which is a text by itself. -/
  | escaped (cs : List Char)
  /-- A tag. -/
  | tag (t : Tag)
  deriving Repr, DecidableEq

/-- A run of backslashes. -/
def backslashes (n : Nat) : List Char := List.replicate n '\\'

/-- What an opening bracket behind a run of backslashes stands for, given the text of its tag if it
    has one. Before a tag, two backslashes stand for one, and one left over makes the tag plain;
    before any other bracket the last backslash vanishes. -/
def bracket (slashes : Nat) : Option (List Char) → List Piece
  | none => [.plain (backslashes (slashes - 1) ++ ['['])]
  | some body =>
    if slashes % 2 = 1 then [.escaped (backslashes (slashes / 2) ++ '[' :: body ++ [']'])]
    else [.plain (backslashes (slashes / 2)), .tag (.ofBody body)]

/-- The parts of a text of which the first `skip` characters have been dealt with, behind a run of
    backslashes that have not. -/
def piecesFrom : (skip slashes : Nat) → List Char → List Piece
  | _, slashes, [] => [.plain (backslashes slashes)]
  | skip + 1, slashes, _ :: cs => piecesFrom skip slashes cs
  | 0, slashes, c :: cs =>
    if c = '\\' then piecesFrom 0 (slashes + 1) cs
    else if c = '[' then
      match tagBody? cs with
      | none => bracket slashes none ++ piecesFrom 0 0 cs
      | some body => bracket slashes (some body) ++ piecesFrom (body.length + 1) 0 cs
    else .plain (backslashes slashes ++ [c]) :: piecesFrom 0 0 cs

/-- The parts of a text. -/
def pieces (s : String) : List Piece := piecesFrom 0 0 s.toList

/-! ## §3 Symbols -/

/-- The symbols that a console knows, under names in small letters. Nothing in the text of a symbol
    is markup or the beginning of another code. -/
structure Symbols where
  /-- The text of the symbol of the given name. -/
  text? : String → Option (List Char)
  /-- There is no colon, no opening bracket and no backslash in it. -/
  unmarked : ∀ name cs, text? name = some cs → ∀ c ∈ cs, c ≠ ':' ∧ c ≠ '[' ∧ c ≠ '\\'

namespace Symbols

/-- No symbols. -/
def none : Symbols := ⟨fun _ => .none, nofun⟩

instance : Inhabited Symbols := ⟨none⟩

/-- The ends of a code that ask for a form of its symbol, coloured or not, each with the character
    that tells the form. -/
def forms : List (List Char × Char) :=
  [(['-', 'e', 'm', 'o', 'j', 'i'], '\uFE0F'), (['-', 't', 'e', 'x', 't'], '\uFE0E')]

/-- The name in a code, and the character that tells the form if the code asks for one. -/
def splitCode (body : List Char) : List Char × List Char :=
  match forms.find? fun form => form.1.isSuffixOf body with
  | some (ending, mark) => (body.take (body.length - ending.length), [mark])
  | .none => (body, [])

/-- The symbol that a code stands for, given the text between its colons. -/
def ofCode? (symbols : Symbols) (body : List Char) : Option (List Char) :=
  (symbols.text? (Text.lowercase (String.ofList (splitCode body).1))).map (· ++ (splitCode body).2)

/-- The characters up to the next colon, if no blank comes first. -/
def upToColon? : List Char → Option (List Char)
  | [] => .none
  | c :: cs =>
    if c = ':' then some []
    else if Text.isBlank c then .none else (upToColon? cs).map (c :: ·)

/-- The text between the colons of the code that begins with the given character. -/
def codeBody? (c : Char) (cs : List Char) : Option (List Char) :=
  if c = ':' then upToColon? cs else .none

/-- What a code is replaced by: its symbol, or itself if there is no such symbol. -/
def replacement (symbols : Symbols) (body : List Char) : List Char :=
  (symbols.ofCode? body).getD (':' :: body ++ [':'])

/-- A text, of which the first `skip` characters have been dealt with, with symbols for codes. -/
def replaceFrom (symbols : Symbols) : (skip : Nat) → List Char → List Char
  | _, [] => []
  | skip + 1, _ :: cs => replaceFrom symbols skip cs
  | 0, c :: cs =>
    match codeBody? c cs with
    | .none => c :: replaceFrom symbols 0 cs
    | some body => symbols.replacement body ++ replaceFrom symbols (body.length + 1) cs

/-- The text with symbols for codes. -/
def replace (symbols : Symbols) (cs : List Char) : List Char := symbols.replaceFrom 0 cs

end Symbols

/-- A piece with plain text put before the pieces that follow it. -/
def consPlain (cs : List Char) : List Piece → List Piece
  | .plain ds :: rest => .plain (cs ++ ds) :: rest
  | ps => .plain cs :: ps

/-- The pieces, with plain text that goes on in one piece. -/
def joined : List Piece → List Piece
  | [] => []
  | .plain cs :: rest => consPlain cs (joined rest)
  | p :: rest => p :: joined rest

/-- A piece with symbols for the codes in it. -/
def Piece.withSymbols (symbols : Symbols) : Piece → Piece
  | .plain cs => .plain (symbols.replace cs)
  | .escaped cs => .escaped (symbols.replace cs)
  | .tag t => .tag t

/-! ## §4 Plain text -/

/-- The text of the parts without the tags, given the open styles, latest first. There is none if a
    closing tag has nothing to close. -/
def settle? : (openStyles : List String) → List Piece → Option (List Char)
  | _, [] => some []
  | styles, .plain cs :: rest => (settle? styles rest).map (cs ++ ·)
  | styles, .escaped cs :: rest => (settle? styles rest).map (cs ++ ·)
  | styles, .tag (.opening name) :: rest => settle? (name :: styles) rest
  | styles, .tag (.closing name) :: rest =>
    if name ∈ styles then settle? (styles.erase name) rest else none
  | styles, .tag .closingLatest :: rest =>
    match styles with
    | [] => none
    | _ :: styles => settle? styles rest

/-- Whether a character has no meaning in a text with tags. -/
def isLiteral (c : Char) : Bool := c != '[' && c != '\\'

/-- A text without opening brackets and backslashes has no tags, so all of it is shown. -/
theorem settle?_piecesFrom_of_literal (styles : List String) {cs : List Char}
    (h : ∀ c ∈ cs, isLiteral c = true) : settle? styles (piecesFrom 0 0 cs) = some cs := by
  induction cs with
  | nil => rfl
  | cons c cs ih =>
    have hc : c ≠ '[' ∧ c ≠ '\\' := by simpa [isLiteral] using h c (by simp)
    -- The character is a piece of its own, and the rest is literal again.
    rw [piecesFrom, if_neg hc.2, if_neg hc.1, settle?, ih fun c hm => h c (by simp [hm])]
    rfl

/-- Whether a console passes over a character: the bell, the backspace, the vertical tabulator, the
    form feed and the carriage return. -/
def isSilent (c : Char) : Bool :=
  c == '\x07' || c == '\x08' || c == '\x0b' || c == '\x0c' || c == '\r'

/-- The characters that a console shows of a text with tags and codes, if the tags are in order. -/
def plainChars? (symbols : Symbols) (s : String) : Option (List Char) :=
  (settle? [] ((joined (pieces s)).map (Piece.withSymbols symbols))).map fun cs =>
    cs.filter fun c => !isSilent c

end TypeAtlas.Markup
