import TypeAtlas.Ordered.Set

/-!
# Type names

A type is addressed by its full name: words joined by dots, with a dollar sign before the name of
a nested type where the universe writes it so. Sets of names are ordered by code point.
-/

namespace TypeAtlas

/-- The full name of a type. -/
abbrev TypeName := String

/-- A set of type names, in code point order. -/
abbrev NameSet := OrdSet TypeName

/-- Whether a character ends one component of a full name and begins the next. -/
def isNameBreak (c : Char) : Bool := c == '.' || c == '$'

/-- The last component of a full name. A dollar sign separates components as a dot does. -/
def simpleName (n : TypeName) : String :=
  String.ofList (n.toList.reverse.takeWhile (fun c => !isNameBreak c)).reverse

end TypeAtlas
