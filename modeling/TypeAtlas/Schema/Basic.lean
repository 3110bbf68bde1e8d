import TypeAtlas.Name
import TypeAtlas.Json.Value

/-!
# Type schemas

A schema describes the types of a universe: their kind and modifiers, how they relate to other
types, and what they declare. Every name in it is a plain string; an empty one names no type.
-/

namespace TypeAtlas

namespace Schema

/-- A field that a type declares. -/
structure FieldDecl where
  /-- The name of the field. -/
  name : String
  /-- The type of its values. -/
  type : String
  /-- Its modifiers, as written. -/
  modifiers : List String := []
  deriving Repr, DecidableEq

/-- A method that a type declares. -/
structure MethodDecl where
  /-- The name of the method. -/
  name : String
  /-- The type of its result. -/
  returns : String := "void"
  /-- The types of its parameters. -/
  params : List String := []
  /-- The types of the exceptions that it declares. -/
  throws : List String := []
  /-- Its modifiers, as written. -/
  modifiers : List String := []
  deriving Repr, DecidableEq

/-- A constructor that a type declares. -/
structure ConstructorDecl where
  /-- The types of its parameters. -/
  params : List String := []
  /-- The types of the exceptions that it declares. -/
  throws : List String := []
  /-- Its modifiers, as written. -/
  modifiers : List String := []
  deriving Repr, DecidableEq

/-- The description of one type. -/
structure TypeDecl where
  /-- The full name of the type. -/
  name : TypeName
  /-- Class, interface, annotation, or any other word. -/
  kind : String := "class"
  /-- Its modifiers, as written. -/
  modifiers : List String := []
  /-- The type that it extends. -/
  extends? : Option TypeName := none
  /-- The interfaces that it implements. -/
  implements : List TypeName := []
  /-- The type that it is a member of. -/
  declaring : Option TypeName := none
  /-- The type around it, where that is not the declaring one. -/
  enclosing : Option TypeName := none
  /-- The types that it says are nested in it. -/
  nested : List TypeName := []
  /-- Its fields. -/
  fields : List FieldDecl := []
  /-- Its methods. -/
  methods : List MethodDecl := []
  /-- Its constructors. -/
  constructors : List ConstructorDecl := []
  deriving Repr, DecidableEq

end Schema

/-- A type schema. -/
structure Schema where
  /-- The version of the format. -/
  version : String := "1.0"
  /-- Anything the writer of the schema wants to keep with it. -/
  metadata : List (String × Json) := []
  /-- Names that count as primitive types. -/
  primitives : List TypeName := []
  /-- The descriptions of types, in the order of the file. -/
  types : List Schema.TypeDecl := []
  deriving Repr

end TypeAtlas
