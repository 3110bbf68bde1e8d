import TypeAtlas.Name

/-!
# Members of types

What a provider tells about the fields, methods and constructors of a type. A place where no type
can be named holds none. Where several types share a place, the first stands in the place and the
others are extra types.
-/

namespace TypeAtlas

/-- The modifiers of a type or member. -/
abbrev Modifiers := OrdSet String

/-- A field that a type declares. -/
structure Field where
  /-- Its name. -/
  name : String
  /-- The type of its values. -/
  type : Option TypeName
  /-- Its modifiers. -/
  modifiers : Modifiers := ∅
  /-- Further types of its values. -/
  extra : List TypeName := []
  deriving Repr, DecidableEq

/-- A method that a type declares. -/
structure Method where
  /-- Its name. -/
  name : String
  /-- The type of its result. -/
  returns : Option TypeName
  /-- The types of its parameters. -/
  params : List (Option TypeName) := []
  /-- The exceptions that it declares. -/
  throws : List TypeName := []
  /-- Its modifiers. -/
  modifiers : Modifiers := ∅
  /-- Further types of its parameters and result. -/
  extra : List TypeName := []
  deriving Repr, DecidableEq

/-- The number of arguments of a method. -/
def Method.argCount (m : Method) : Nat := m.params.length

/-- A constructor that a type declares. -/
structure Constructor where
  /-- The types of its parameters. -/
  params : List (Option TypeName) := []
  /-- The exceptions that it declares. -/
  throws : List TypeName := []
  /-- Its modifiers. -/
  modifiers : Modifiers := ∅
  /-- Further types of its parameters. -/
  extra : List TypeName := []
  deriving Repr, DecidableEq

end TypeAtlas
