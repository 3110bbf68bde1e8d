import TypeAtlas.Text.Blank

/-!
# Numerals

Whole numbers as people write them: decimal digits of any script, with a sign in front, blanks
around, and single underscores between digits.
-/

namespace TypeAtlas.Text

/-- The code points of the digits for zero. The digits up to nine follow each of them. -/
def zeroDigits : List Nat :=
  [0x0030, 0x0660, 0x06F0, 0x07C0, 0x0966, 0x09E6, 0x0A66, 0x0AE6, 0x0B66, 0x0BE6, 0x0C66, 0x0CE6,
   0x0D66, 0x0DE6, 0x0E50, 0x0ED0, 0x0F20, 0x1040, 0x1090, 0x17E0, 0x1810, 0x1946, 0x19D0, 0x1A80,
   0x1A90, 0x1B50, 0x1BB0, 0x1C40, 0x1C50, 0xA620, 0xA8D0, 0xA900, 0xA9D0, 0xA9F0, 0xAA50, 0xABF0,
   0xFF10, 0x104A0, 0x10D30, 0x11066, 0x110F0, 0x11136, 0x111D0, 0x112F0, 0x11450, 0x114D0,
   0x11650, 0x116C0, 0x11730, 0x118E0, 0x11950, 0x11C50, 0x11D50, 0x11DA0, 0x16A60, 0x16AC0,
   0x16B50, 0x1D7CE, 0x1D7D8, 0x1D7E2, 0x1D7EC, 0x1D7F6, 0x1E140, 0x1E2F0, 0x1E950, 0x1FBF0]

/-- The value of a decimal digit. -/
def digitValue? (c : Char) : Option Nat :=
  (zeroDigits.find? fun z => z ≤ c.toNat && c.toNat ≤ z + 9).map fun z => c.toNat - z

/-- The number that digits stand for, if they go on from the value so far. An underscore has to
    stand between two digits. -/
def digitsFrom? (value : Nat) : List Char → Option Nat
  | [] => some value
  | '_' :: c :: cs => do digitsFrom? (10 * value + (← digitValue? c)) cs
  | c :: cs => do digitsFrom? (10 * value + (← digitValue? c)) cs

/-- The number that digits stand for. -/
def digits? : List Char → Option Nat
  | [] => none
  | c :: cs => do digitsFrom? (← digitValue? c) cs

/-- The most digits that a numeral may have. -/
def numeralLimit : Nat := 4300

/-- The whole number that a text stands for. -/
def integer? (s : String) : Option Int :=
  let cs := stripChars s.toList
  if numeralLimit < cs.countP (fun c => (digitValue? c).isSome) then none
  else
    match cs with
    | '-' :: ds => (digits? ds).map fun n => -(n : Int)
    | '+' :: ds => (digits? ds).map fun n => (n : Int)
    | ds => (digits? ds).map fun n => (n : Int)

end TypeAtlas.Text
