import TypeAtlas.Provider
import TypeAtlas.Schema.Basic
import TypeAtlas.Text.Blank
import TypeAtlas.Text.Lowercase

/-!
# The type index

A schema made ready for questions. Where a schema describes a name twice, the first place and the
last description count. An empty string in a description names no type.
-/

namespace TypeAtlas

open Schema

/-- The names of the primitive types that every schema has. -/
def builtinPrimitives : List TypeName :=
  ["void", "boolean", "byte", "char", "short", "int", "long", "float", "double"]

/-- The types of a schema, ready for questions. -/
structure TypeIndex where
  /-- The version of the schema. -/
  version : String
  /-- What the writer of the schema kept with it. -/
  metadata : List (String × Json)
  /-- The names that count as primitive types. -/
  primitives : NameSet
  /-- The descriptions, one for each name. -/
  types : List TypeDecl

/-- The type that a string names: none for the empty string. -/
def nonempty? (s : String) : Option TypeName := if s = "" then none else some s

namespace TypeIndex

/-! ## §1 Building -/

/-- Put a description in place of an earlier one of the same name, or else at the end. -/
def putType (d : TypeDecl) : List TypeDecl → List TypeDecl
  | [] => [d]
  | e :: rest => if e.name = d.name then d :: rest else e :: putType d rest

/-- One description for each name, at the place of the first and with the words of the last. -/
def mergeTypes (ds : List TypeDecl) : List TypeDecl := ds.foldl (fun acc d => putType d acc) []

/-- The index of a schema, with further names that count as primitive. -/
def ofSchema (s : Schema) (extraPrimitives : List TypeName) : TypeIndex where
  version := s.version
  metadata := s.metadata
  primitives := OrdSet.ofList (builtinPrimitives ++ s.primitives ++ extraPrimitives)
  types := mergeTypes s.types

/-- The names of the index, in order. -/
def names (x : TypeIndex) : List TypeName := x.types.map TypeDecl.name

/-- The description of a name. -/
def find? (x : TypeIndex) (n : TypeName) : Option TypeDecl := x.types.find? fun d => d.name == n

/-- Whether the index describes the name. -/
def contains (x : TypeIndex) (n : TypeName) : Bool := (x.find? n).isSome

/-! ## §2 Relations -/

/-- Add a name at the end of a list unless it is there. -/
def addNew (ns : List TypeName) (n : TypeName) : List TypeName :=
  if ns.contains n then ns else ns ++ [n]

/-- Add what one description says about the types nested in `parent`: the parent's own words, and
    the type itself if it declares `parent` as the type that it is a member of. -/
def addNested (parent : TypeName) (ns : List TypeName) (d : TypeDecl) : List TypeName :=
  let ns := if d.name = parent then d.nested.foldl addNew ns else ns
  if d.declaring.bind nonempty? = some parent then addNew ns d.name else ns

/-- The types nested in a type, from both directions, each once. -/
def nestedIn (x : TypeIndex) (parent : TypeName) : List TypeName :=
  x.types.foldl (addNested parent) []

/-- Whether a name stands for a primitive type or for an array. -/
def isPrimitive (x : TypeIndex) (n : TypeName) : Bool :=
  x.primitives.toList.contains n || "[]".toList.isSuffixOf n.toList || n.toList.head? == some '['

/-- The fields of a described type. -/
def fieldsOf (d : TypeDecl) : List Field :=
  d.fields.map fun f => { name := f.name, type := nonempty? f.type,
                          modifiers := OrdSet.ofList f.modifiers }

/-- The methods of a described type. -/
def methodsOf (d : TypeDecl) : List Method :=
  d.methods.map fun m =>
    { name := m.name, returns := nonempty? m.returns, params := m.params.map nonempty?,
      throws := m.throws.filter (· != ""), modifiers := OrdSet.ofList m.modifiers }

/-- The constructors of a described type. -/
def constructorsOf (d : TypeDecl) : List Constructor :=
  d.constructors.map fun c =>
    { params := c.params.map nonempty?, throws := c.throws.filter (· != ""),
      modifiers := OrdSet.ofList c.modifiers }

/-- The type around a described type: the one it names, or else the declaring one. -/
def enclosingOf (d : TypeDecl) : Option TypeName :=
  (d.enclosing.bind nonempty?).or (d.declaring.bind nonempty?)

/-- The modifiers of a described type. Interfaces are abstract whether or not they say so. -/
def modifiersOf (d : TypeDecl) : Modifiers :=
  let own := OrdSet.ofList d.modifiers
  if d.kind = "interface" ∨ d.kind = "annotation" then
    (own.insert "interface").insert "abstract"
  else own

/-- All names that a description may refer to, its own included. -/
def mentions (d : TypeDecl) : List TypeName :=
  d.name :: d.extends?.toList ++ d.declaring.toList ++ d.enclosing.toList ++ d.nested ++
    d.implements ++ d.fields.map FieldDecl.type ++
    d.methods.flatMap fun m => m.returns :: m.params ++ m.throws

/-! ## §3 Search -/

/-- Keep the first of equal names. -/
def distinct (ns : List TypeName) : List TypeName := ns.foldl addNew []

/-- The names whose last component is the given word, as written or in lower case. -/
def withSimpleName (x : TypeIndex) (word : String) : List TypeName :=
  x.names.filter fun n => simpleName n == word || Text.lowercase (simpleName n) == word

/-- The types that a possibly partial name may stand for. The exact name comes first; then names
    that differ in case only; then names whose last component is the word, first as written and
    then in lower case. -/
def search (x : TypeIndex) (query : String) : List TypeName :=
  let word := Text.strip query
  if x.contains word then [word]
  else
    let lower := Text.lowercase word
    match x.names.filter fun n => Text.lowercase n == lower with
    | [] => distinct (x.withSimpleName word ++ x.withSimpleName lower)
    | ns => ns

/-! ## §4 The provider -/

/-- A question about the description of a type. -/
def describing {α : Type} (x : TypeIndex) (answer : TypeDecl → α) (n : TypeName) :
    Asking Unit α :=
  match x.find? n with
  | some d => pure (answer d)
  | none => throw (.unresolved n)

/-- The index as a provider. It remembers nothing. -/
def provider (x : TypeIndex) : Provider Unit where
  resolve n := if x.contains n then pure n else throw (.unresolved n)
  search query := pure (x.search query)
  fields := x.describing fieldsOf
  methods := x.describing methodsOf
  constructors := x.describing constructorsOf
  interfaces := x.describing fun d => d.implements.filter (· != "")
  superType := x.describing fun d => d.extends?.bind nonempty?
  declaringType := x.describing fun d => d.declaring.bind nonempty?
  enclosingType := x.describing enclosingOf
  nestedTypes := x.describing fun d => x.nestedIn d.name
  modifiers := x.describing modifiersOf
  isPrimitive := x.isPrimitive
  capacity _ := (x.types.flatMap mentions).length

end TypeIndex

end TypeAtlas
