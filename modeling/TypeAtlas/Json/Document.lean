import TypeAtlas.Json.Value
import TypeAtlas.Text.Utf8

/-!
# JSON documents

A document is a JSON text as far as it can be read. The first fault of the text ends the reading,
and the tree marks the place: a value that is no value is `broken`, and an array or object that
does not end properly is not `closed`. So one who walks the tree in the order of the text meets
what stands before the fault, and then the fault.

The text is read as characters and gaps; a string that holds a gap has no text.
-/

namespace TypeAtlas.Json

/-- A JSON value as written, up to the first fault. -/
inductive Node where
  /-- The null value. -/
  | null
  /-- A truth value. -/
  | bool (b : Bool)
  /-- A number written without fraction and exponent. -/
  | int (n : Int)
  /-- The number `mantissa * 10 ^ exponent`, written with a fraction or an exponent. -/
  | decimal (mantissa exponent : Int)
  /-- A string; one with octets that are no characters has no text. -/
  | str (text : Option String)
  /-- An array. -/
  | arr (items : List Node) (closed : Bool)
  /-- An object. -/
  | obj (members : List (Option String × Node)) (closed : Bool)
  /-- The place of a fault. -/
  | broken
  deriving Repr, Inhabited

/-- A whole text: its value, and whether only white space follows the value. -/
structure Document where
  /-- The value of the text. -/
  root : Node
  /-- Whether the value ends the text. -/
  ended : Bool
  deriving Repr

/-- Characters and gaps still to be read. -/
abbrev Input := List (Option Char)

/-! ## §1 Lexical parts -/

/-- Whether a character may stand between the parts of a JSON text. -/
def isSpace (c : Char) : Bool := c == ' ' || c == '\n' || c == '\r' || c == '\t'

/-- The input without the white space at its front. -/
def skipSpace : Input → Input
  | some c :: cs => if isSpace c then skipSpace cs else some c :: cs
  | cs => cs

/-- The value of a hexadecimal digit. -/
def hexValue? (c : Char) : Option Nat :=
  let n := c.toNat
  if 48 ≤ n && n ≤ 57 then some (n - 48)
  else if 97 ≤ n && n ≤ 102 then some (n - 87)
  else if 65 ≤ n && n ≤ 70 then some (n - 55)
  else none

/-- The code unit written by four hexadecimal digits. -/
def codeUnit? : Option Char → Option Char → Option Char → Option Char → Option Nat
  | some a, some b, some c, some d => do
    let a ← hexValue? a
    let b ← hexValue? b
    let c ← hexValue? c
    let d ← hexValue? d
    return ((a * 16 + b) * 16 + c) * 16 + d
  | _, _, _, _ => none

/-- Whether a code unit begins a surrogate pair. -/
def isLeading (n : Nat) : Bool := 0xD800 ≤ n && n ≤ 0xDBFF

/-- Whether a code unit ends a surrogate pair. -/
def isTrailing (n : Nat) : Bool := 0xDC00 ≤ n && n ≤ 0xDFFF

/-- The character of a surrogate pair. -/
def pairChar (hi lo : Nat) : Char := Char.ofNat (0x10000 + (hi - 0xD800) * 0x400 + (lo - 0xDC00))

/-- The character that a letter after a backslash stands for. -/
def shortEscape? (c : Char) : Option Char :=
  match c with
  | '"' => some '"'
  | '\\' => some '\\'
  | '/' => some '/'
  | 'b' => some '\x08'
  | 'f' => some '\x0c'
  | 'n' => some '\n'
  | 'r' => some '\r'
  | 't' => some '\t'
  | _ => none

/-- A string behind its opening quotation mark: its contents and what follows its closing one. -/
def stringRest? : Input → Option (Input × Input)
  | [] => none
  | some '"' :: rest => some ([], rest)
  | some '\\' :: some 'u' :: a :: b :: c :: d :: rest =>
    match codeUnit? a b c d with
    | none => none
    | some hi =>
      if isTrailing hi then none
      else if isLeading hi then
        match rest with
        | some '\\' :: some 'u' :: e :: f :: g :: h :: rest =>
          match codeUnit? e f g h with
          | none => none
          | some lo =>
            if isTrailing lo then
              (stringRest? rest).map fun r => (some (pairChar hi lo) :: r.1, r.2)
            else none
        | _ => none
      else (stringRest? rest).map fun r => (some (Char.ofNat hi) :: r.1, r.2)
  | some '\\' :: some e :: rest =>
    match shortEscape? e with
    | some c => (stringRest? rest).map fun r => (some c :: r.1, r.2)
    | none => none
  | some '\\' :: _ => none
  | some c :: rest =>
    if c.toNat < 0x20 then none else (stringRest? rest).map fun r => (some c :: r.1, r.2)
  | none :: rest => (stringRest? rest).map fun r => (none :: r.1, r.2)

/-- The text of the contents of a string. -/
def contentsText (cs : Input) : Option String := (Text.ungapped? cs).map String.ofList

/-- Whether a character is a decimal digit of a number. -/
def isDigit (c : Char) : Bool := '0' ≤ c && c ≤ '9'

/-- The digits at the front of the input, and the rest. -/
def spanDigits : Input → List Char × Input
  | some c :: cs =>
    if isDigit c then
      let r := spanDigits cs
      (c :: r.1, r.2)
    else ([], some c :: cs)
  | cs => ([], cs)

/-- The number that digits write. -/
def digitsValue (ds : List Char) : Nat := ds.foldl (fun n c => n * 10 + (c.toNat - 48)) 0

/-- Apply a sign. -/
def signed (negative : Bool) (n : Nat) : Int := if negative then -(n : Int) else n

/-- The sign at the front of an exponent: a minus counts, a plus is passed over. -/
def exponentSign : Input → Bool × Input
  | some '-' :: cs => (true, cs)
  | some '+' :: cs => (false, cs)
  | cs => (false, cs)

/-- The exponent at the front of the input, if a number goes on with one: `none` where there is
    none, and no result where it lacks digits. -/
def exponentRest? : Input → Option (Option Int × Input)
  | some c :: cs =>
    if c == 'e' || c == 'E' then
      let sign := exponentSign cs
      let r := spanDigits sign.2
      if r.1.isEmpty then none else some (some (signed sign.1 (digitsValue r.1)), r.2)
    else some (none, some c :: cs)
  | cs => some (none, cs)

/-- The digits behind a decimal point at the front of the input, likewise. -/
def fractionRest? : Input → Option (Option (List Char) × Input)
  | some '.' :: cs =>
    let r := spanDigits cs
    if r.1.isEmpty then none else some (some r.1, r.2)
  | cs => some (none, cs)

/-- The sign at the front of a number. -/
def numberSign : Input → Bool × Input
  | some '-' :: cs => (true, cs)
  | cs => (false, cs)

/-- A number at the front of the input, and the rest. Zero is the only number whose digits may
    begin with a zero. -/
def number? (cs : Input) : Option (Node × Input) := do
  let sign := numberSign cs
  let whole := spanDigits sign.2
  if whole.1.isEmpty || (whole.1.head? == some '0' && whole.1.length != 1) then none
  let fraction ← fractionRest? whole.2
  let exponent ← exponentRest? fraction.2
  match fraction.1, exponent.1 with
  | none, none => return (.int (signed sign.1 (digitsValue whole.1)), exponent.2)
  | ds, e =>
    let ds := ds.getD []
    return (.decimal (signed sign.1 (digitsValue (whole.1 ++ ds))) (e.getD 0 - ds.length),
      exponent.2)

/-- A word at the front of the input, and the rest. -/
def word? : List Char → Input → Option Input
  | [], cs => some cs
  | w :: ws, some c :: cs => if c = w then word? ws cs else none
  | _ :: _, _ => none

/-! ## §2 Values

Each function gives what it read and, unless it met a fault, the input behind it. The first
argument bounds the number of calls; twice the length of the input is enough, because every second
call at least has taken a character. -/

/-- A value without parts at the front of the input. -/
def scalar (cs : Input) : Node × Option Input :=
  match cs with
  | some '"' :: rest =>
    match stringRest? rest with
    | some r => (.str (contentsText r.1), some r.2)
    | none => (.broken, none)
  | some 'n' :: rest =>
    match word? ['u', 'l', 'l'] rest with
    | some r => (.null, some r)
    | none => (.broken, none)
  | some 't' :: rest =>
    match word? ['r', 'u', 'e'] rest with
    | some r => (.bool true, some r)
    | none => (.broken, none)
  | some 'f' :: rest =>
    match word? ['a', 'l', 's', 'e'] rest with
    | some r => (.bool false, some r)
    | none => (.broken, none)
  | cs =>
    match number? cs with
    | some r => (r.1, some r.2)
    | none => (.broken, none)

mutual

/-- A value, after white space. -/
def value : Nat → Input → Node × Option Input
  | 0, _ => (.broken, none)
  | fuel + 1, cs =>
    match skipSpace cs with
    | some '[' :: rest =>
      match skipSpace rest with
      | some ']' :: rest => (.arr [] true, some rest)
      | rest =>
        let r := items fuel rest
        (.arr r.1 r.2.isSome, r.2)
    | some '\x7b' :: rest =>
      match skipSpace rest with
      | some '\x7d' :: rest => (.obj [] true, some rest)
      | rest =>
        let r := members fuel rest
        (.obj r.1 r.2.isSome, r.2)
    | cs => scalar cs

/-- The items of an array up to its closing bracket. -/
def items : Nat → Input → List Node × Option Input
  | 0, _ => ([], none)
  | fuel + 1, cs =>
    let r := value fuel cs
    match r.2 with
    | none => ([r.1], none)
    | some rest =>
      match skipSpace rest with
      | some ']' :: rest => ([r.1], some rest)
      | some ',' :: rest =>
        let s := items fuel rest
        (r.1 :: s.1, s.2)
      | _ => ([r.1], none)

/-- The members of an object up to its closing brace. -/
def members : Nat → Input → List (Option String × Node) × Option Input
  | 0, _ => ([], none)
  | fuel + 1, cs =>
    match skipSpace cs with
    | some '"' :: rest =>
      match stringRest? rest with
      | none => ([], none)
      | some k =>
        match skipSpace k.2 with
        | some ':' :: rest =>
          let key := contentsText k.1
          let r := value fuel rest
          match r.2 with
          | none => ([(key, r.1)], none)
          | some rest =>
            match skipSpace rest with
            | some '\x7d' :: rest => ([(key, r.1)], some rest)
            | some ',' :: rest =>
              let s := members fuel rest
              ((key, r.1) :: s.1, s.2)
            | _ => ([(key, r.1)], none)
        | _ => ([], none)
    | _ => ([], none)

end

/-- The document that characters and gaps write. -/
def Document.ofInput (cs : Input) : Document :=
  let r := value (2 * cs.length + 2) cs
  ⟨r.1, r.2.any fun rest => (skipSpace rest).isEmpty⟩

/-- The document that a file holds. -/
def Document.ofOctets (bs : Octets) : Document := .ofInput (Text.scan bs)

end TypeAtlas.Json
