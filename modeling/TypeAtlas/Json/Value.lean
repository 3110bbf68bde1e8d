/-!
# JSON values

A JSON value as this library reads and writes it. Numbers with a fraction or an exponent are kept
exactly, as a whole number times a power of ten.
-/

namespace TypeAtlas

/-- A JSON value. The members of an object keep the order in which they were written. -/
inductive Json where
  /-- The null value. -/
  | null
  /-- A truth value. -/
  | bool (b : Bool)
  /-- A number written without fraction and exponent. -/
  | int (n : Int)
  /-- The number `mantissa * 10 ^ exponent`, written with a fraction or an exponent. -/
  | decimal (mantissa exponent : Int)
  /-- A string. -/
  | str (s : String)
  /-- An array. -/
  | arr (items : List Json)
  /-- An object. -/
  | obj (members : List (String × Json))
  deriving Repr, Inhabited

namespace Json

/-- A number counting something. -/
def nat (n : Nat) : Json := .int n

/-- An array of strings. -/
def strs (ss : List String) : Json := .arr (ss.map .str)

/-- A string, or null where there is none. -/
def strOrNull : Option String → Json
  | some s => .str s
  | none => .null

end Json

end TypeAtlas
