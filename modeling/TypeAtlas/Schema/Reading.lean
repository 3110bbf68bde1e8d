import TypeAtlas.Schema.Basic
import TypeAtlas.Json.Reading

/-!
# Reading type schemas

A schema is read from a JSON document. Members with unknown keys are passed over; of members with
the same key each one is checked and the last one counts; a part that is left out has its default.
-/

namespace TypeAtlas.Schema

open Json

/-- Reads an array of strings. -/
def texts : Reader (List String) := list text

/-- What has been read of a field. -/
structure FieldParts where
  /-- The name, once read. -/
  name : Option String := none
  /-- The type, once read. -/
  type : Option String := none
  /-- The modifiers. -/
  modifiers : List String := []

/-- Reads one member of a field. -/
def fieldMember (p : FieldParts) (key : Option String) (path : Path) (node : Node) :
    Except Fault FieldParts :=
  match key with
  | some "name" => do return { p with name := some (← part "name" text path node) }
  | some "type" => do return { p with type := some (← part "type" text path node) }
  | some "modifiers" => do return { p with modifiers := ← part "modifiers" texts path node }
  | _ => do skim node; return p

/-- Reads a field. -/
def readField : Reader FieldDecl :=
  object {} fieldMember fun path p => do
    let name ← need "name" path p.name
    let type ← need "type" path p.type
    return { name, type, modifiers := p.modifiers }

/-- What has been read of a method. -/
structure MethodParts where
  /-- The name, once read. -/
  name : Option String := none
  /-- The rest, with defaults for what has not been read. -/
  rest : MethodDecl := { name := "" }

/-- Reads one member of a method. -/
def methodMember (p : MethodParts) (key : Option String) (path : Path) (node : Node) :
    Except Fault MethodParts :=
  match key with
  | some "name" => do return { p with name := some (← part "name" text path node) }
  | some "returns" => do
    return { p with rest := { p.rest with returns := ← part "returns" text path node } }
  | some "params" => do
    return { p with rest := { p.rest with params := ← part "params" texts path node } }
  | some "throws" => do
    return { p with rest := { p.rest with throws := ← part "throws" texts path node } }
  | some "modifiers" => do
    return { p with rest := { p.rest with modifiers := ← part "modifiers" texts path node } }
  | _ => do skim node; return p

/-- Reads a method. -/
def readMethod : Reader MethodDecl :=
  object {} methodMember fun path p => do
    let name ← need "name" path p.name
    return { p.rest with name }

/-- Reads one member of a constructor. -/
def constructorMember (c : ConstructorDecl) (key : Option String) (path : Path) (node : Node) :
    Except Fault ConstructorDecl :=
  match key with
  | some "params" => do return { c with params := ← part "params" texts path node }
  | some "throws" => do return { c with throws := ← part "throws" texts path node }
  | some "modifiers" => do return { c with modifiers := ← part "modifiers" texts path node }
  | _ => do skim node; return c

/-- Reads a constructor. -/
def readConstructor : Reader ConstructorDecl :=
  object {} constructorMember fun _ c => .ok c

/-- What has been read of a type. -/
structure TypeParts where
  /-- The name, once read. -/
  name : Option String := none
  /-- The rest, with defaults for what has not been read. -/
  rest : TypeDecl := { name := "" }

/-- Reads one member of a type. -/
def typeMember (p : TypeParts) (key : Option String) (path : Path) (node : Node) :
    Except Fault TypeParts :=
  match key with
  | some "name" => do return { p with name := some (← part "name" text path node) }
  | some "kind" => do
    return { p with rest := { p.rest with kind := ← part "kind" text path node } }
  | some "modifiers" => do
    return { p with rest := { p.rest with modifiers := ← part "modifiers" texts path node } }
  | some "extends" => do
    return { p with rest := { p.rest with extends? := ← part "extends" textOrNull path node } }
  | some "implements" => do
    return { p with rest := { p.rest with implements := ← part "implements" texts path node } }
  | some "declaring" => do
    return { p with rest := { p.rest with declaring := ← part "declaring" textOrNull path node } }
  | some "enclosing" => do
    return { p with rest := { p.rest with enclosing := ← part "enclosing" textOrNull path node } }
  | some "nested" => do
    return { p with rest := { p.rest with nested := ← part "nested" texts path node } }
  | some "fields" => do
    return { p with rest := { p.rest with fields := ← part "fields" (list readField) path node } }
  | some "methods" => do
    return { p with
      rest := { p.rest with methods := ← part "methods" (list readMethod) path node } }
  | some "constructors" => do
    return { p with
      rest := { p.rest with
        constructors := ← part "constructors" (list readConstructor) path node } }
  | _ => do skim node; return p

/-- Reads a type. -/
def readType : Reader TypeDecl :=
  object {} typeMember fun path p => do
    let name ← need "name" path p.name
    return { p.rest with name }

/-- Reads one member of a schema. -/
def schemaMember (s : Schema) (key : Option String) (path : Path) (node : Node) :
    Except Fault Schema :=
  match key with
  | some "version" => do return { s with version := ← part "version" text path node }
  | some "metadata" => do return { s with metadata := ← part "metadata" anyObject path node }
  | some "primitives" => do return { s with primitives := ← part "primitives" texts path node }
  | some "types" => do return { s with types := ← part "types" (list readType) path node }
  | _ => do skim node; return s

/-- Reads a schema. -/
def readSchema : Reader Schema := object {} schemaMember fun _ s => .ok s

/-- The schema that a file holds. -/
def ofOctets (bs : Octets) : Except Fault Schema := (Document.ofOctets bs).read readSchema

end TypeAtlas.Schema
