import TypeAtlas.Schema.Basic
import TypeAtlas.Json.Printer

/-!
# Writing type schemas

A schema written out in full: every part of every description stands there, defaults included.
-/

namespace TypeAtlas.Schema

open Json

/-- A field, written out. -/
def FieldDecl.toJson (f : FieldDecl) : Json :=
  .obj [("name", .str f.name), ("type", .str f.type), ("modifiers", strs f.modifiers)]

/-- A method, written out. -/
def MethodDecl.toJson (m : MethodDecl) : Json :=
  .obj [("name", .str m.name), ("returns", .str m.returns), ("params", strs m.params),
    ("throws", strs m.throws), ("modifiers", strs m.modifiers)]

/-- A constructor, written out. -/
def ConstructorDecl.toJson (c : ConstructorDecl) : Json :=
  .obj [("params", strs c.params), ("throws", strs c.throws), ("modifiers", strs c.modifiers)]

/-- A type, written out. -/
def TypeDecl.toJson (t : TypeDecl) : Json :=
  .obj [("name", .str t.name), ("kind", .str t.kind), ("modifiers", strs t.modifiers),
    ("extends", strOrNull t.extends?), ("implements", strs t.implements),
    ("declaring", strOrNull t.declaring), ("enclosing", strOrNull t.enclosing),
    ("nested", strs t.nested), ("fields", .arr (t.fields.map FieldDecl.toJson)),
    ("methods", .arr (t.methods.map MethodDecl.toJson)),
    ("constructors", .arr (t.constructors.map ConstructorDecl.toJson))]

/-- A schema, written out. -/
def toJson (s : Schema) : Json :=
  .obj [("version", .str s.version), ("metadata", .obj s.metadata),
    ("primitives", strs s.primitives), ("types", .arr (s.types.map TypeDecl.toJson))]

/-- The text of a schema, written out. -/
def render (s : Schema) : String := s.toJson.render

end TypeAtlas.Schema
