import TypeAtlas.Codebase.Description
import TypeAtlas.Codebase.Execution
import TypeAtlas.Ordered.Map
import TypeAtlas.Provider
import TypeAtlas.Text.Blank

/-!
# A codebase as a provider

Classes are found by importing the modules that their names begin with, and are then known by the
names that were asked for as well as by their own. A class that is mentioned by another one is known
from then on, unless its name was taken before.
-/

namespace TypeAtlas.Codebase

/-! ## §1 Memory -/

/-- What a codebase remembers from question to question. -/
structure Memory where
  /-- What has been imported. -/
  world : World
  /-- The classes that are known, by name. -/
  known : OrdMap TypeName ClassId := ∅

/-- The memory before any question. -/
def Memory.start : Memory := { world := World.start }

/-- The memory after a class has come up. It is known by its own name, unless that name is taken. -/
def Memory.register (m : Memory) (c : ClassId) : Memory :=
  let name := m.world.fullName c
  if m.known.contains name then m else { m with known := m.known.insert name c }

/-- The memory after the classes among the mentioned types have come up. -/
def Memory.registerAll (m : Memory) (ms : List Mention) : Memory :=
  (ms.filterMap Mention.cls).foldl Memory.register m

/-- A class that has come up, by its name. -/
def registered (c : ClassId) : Asking Memory TypeName := do
  modify fun m => m.register c
  return (← get).world.fullName c

/-! ## §2 Finding classes -/

/-- Import a module, if there is one. -/
def tryImport (code : Codebase) (module : String) : Asking Memory (Option SpaceId) :=
  ExceptT.mk fun m =>
    match (importModule code module).run m.world with
    | (.ok space, w) => (.ok (some space), { m with world := w })
    | (.error .missing, w) => (.ok none, { m with world := w })
    | (.error (.fault fault), w) => (.error (.importing fault), { m with world := w })

/-- The class at the end of a path of attributes. -/
def World.classAt? (w : World) (space : SpaceId) (path : Dotted) : Option ClassId :=
  match w.follow? (.module space) path with
  | some (.cls c) => some c
  | _ => none

/-- Look for a class of which at most the first `n` components name a module, longest module
    first. -/
def findFrom (code : Codebase) (path : Dotted) : Nat → Asking Memory (Option ClassId)
  | 0 => return none
  | n + 1 => do
    match ← tryImport code (Dotted.text (path.take (n + 1))) with
    | none => findFrom code path n
    | some space =>
      match (← get).world.classAt? space (path.drop (n + 1)) with
      | some c => return some c
      | none => findFrom code path n

/-- Look for the class of a name. -/
def findClass (code : Codebase) (name : TypeName) : Asking Memory (Option ClassId) :=
  let path := Dotted.ofString name
  findFrom code path (path.length - 1)

/-- The class of a name, known from now on by that name. -/
def classOf (code : Codebase) (name : TypeName) : Asking Memory ClassId := do
  match (← get).known.get? name with
  | some c => return c
  | none =>
    match ← findClass code name with
    | none => throw (.unresolved name)
    | some c =>
      modify fun m => { m with known := m.known.insert name c }
      return c

/-! ## §3 Questions -/

/-- The type that a name stands for. -/
def resolve (code : Codebase) (name : String) : Asking Memory TypeName := do
  registered (← classOf code name)

/-- The type that a name stands for, if it stands for one. -/
def resolve? (code : Codebase) (name : String) : Asking Memory (Option TypeName) :=
  ExceptT.mk fun m =>
    match (resolve code name).run m with
    | (.ok t, m) => (.ok (some t), m)
    | (.error (.unresolved _), m) => (.ok none, m)
    | (.error failure, m) => (.error failure, m)

/-- The types that a name may stand for: at most one. Blanks around the name do not count. -/
def search (code : Codebase) (name : String) : Asking Memory (List TypeName) :=
  return (← resolve? code (Text.strip name)).toList

/-- A question about a class. -/
def asking {α : Type} (code : Codebase) (answer : World → ClassId → α) (t : TypeName) :
    Asking Memory α := do
  let c ← classOf code t
  return answer (← get).world c

/-- A question whose answer mentions types. -/
def describing {α β : Type} (code : Codebase) (describe : World → ClassId → List α)
    (mentions : α → List Mention) (form : α → β) (t : TypeName) : Asking Memory (List β) := do
  let ds ← asking code describe t
  modify fun m => m.registerAll (ds.flatMap mentions)
  return ds.map form

/-- A question whose answer names classes. -/
def naming (code : Codebase) (classes : World → ClassId → List ClassId) (t : TypeName) :
    Asking Memory (List TypeName) := do
  (← asking code classes t).mapM registered

/-- The type around a type, if it can be found by its name. -/
def declaring (code : Codebase) (t : TypeName) : Asking Memory (Option TypeName) := do
  match ← asking code (fun w c => (w.info c).declaringName?) t with
  | none => return none
  | some parent => resolve? code parent

/-- The names of the primitive types of a codebase, and of its containers. -/
def primitiveNames : List TypeName :=
  ["builtins.int", "builtins.float", "builtins.complex", "builtins.bool", "builtins.str",
    "builtins.bytes", nothingTypeName, "builtins.list", "builtins.tuple", "builtins.dict",
    "builtins.set", "builtins.frozenset", "builtins.bytearray"]

/-- Whether a name stands for a primitive type, a container or a type with arguments. -/
def isPrimitive (t : TypeName) : Bool := primitiveNames.contains t || t.toList.contains '['

/-- A codebase as a provider. -/
def provider (code : Codebase) : Provider Memory where
  resolve := resolve code
  search := search code
  fields := describing code World.fieldsOf FieldDescription.mentions FieldDescription.field
  methods := describing code World.methodsOf CallableDescription.mentions
    CallableDescription.method
  constructors := describing code World.constructorsOf CallableDescription.mentions
    CallableDescription.constructor
  interfaces := naming code World.interfacesOf
  superType t := return (← naming code (fun w c => (w.superOf c).toList) t).head?
  declaringType := declaring code
  enclosingType := declaring code
  nestedTypes := naming code World.nestedOf
  modifiers t := return OrdSet.ofList (← asking code World.modifiersOf t)
  isPrimitive := isPrimitive
  capacity _ := builtinClasses.length + code.size

end TypeAtlas.Codebase
