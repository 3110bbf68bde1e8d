import TypeAtlas.Closure.Exploration

/-!
# Metrics

The counts that describe the structure of a type: its methods and fields by modifier, and the types
that it is associated with. `Counter` names the counts in the order in which reports show them.
-/

namespace TypeAtlas

/-! ## §1 The counts -/

/-- The counts that describe the structure of a type. -/
structure Metrics where
  /-- The type. -/
  type : TypeName
  /-- Methods. -/
  methods : Nat
  /-- Constructors. -/
  constructors : Nat
  /-- Public methods. -/
  publicMethods : Nat
  /-- Private methods. -/
  privateMethods : Nat
  /-- Static methods. -/
  staticMethods : Nat
  /-- Abstract methods. -/
  abstractMethods : Nat
  /-- Native methods. -/
  nativeMethods : Nat
  /-- Synchronized methods. -/
  synchronizedMethods : Nat
  /-- Final methods. -/
  finalMethods : Nat
  /-- Fields. -/
  members : Nat
  /-- Public fields. -/
  publicMembers : Nat
  /-- Private fields. -/
  privateMembers : Nat
  /-- Protected fields. -/
  protectedMembers : Nat
  /-- Static fields. -/
  staticMembers : Nat
  /-- Final fields. -/
  finalMembers : Nat
  /-- Interfaces among the direct references. -/
  interfaceTypes : Nat
  /-- Abstract types among the direct references. -/
  abstractTypes : Nat
  /-- Direct references. -/
  directAssociations : Nat
  /-- Types reached by walks. -/
  indirectAssociations : Nat
  /-- The methods with their numbers of arguments. -/
  methodArgs : List (String × Nat)
  deriving Repr, DecidableEq

/-- The names of the counts, in the order of reports. -/
inductive Counter where
  | methods | constructors | publicMethods | privateMethods | staticMethods | abstractMethods
  | nativeMethods | synchronizedMethods | finalMethods | members | publicMembers | privateMembers
  | protectedMembers | staticMembers | finalMembers | interfaceTypes | abstractTypes
  | directAssociations | indirectAssociations
  deriving Repr, DecidableEq

namespace Counter

/-- All counters, in the order of reports. -/
def all : List Counter :=
  [.methods, .constructors, .publicMethods, .privateMethods, .staticMethods, .abstractMethods,
    .nativeMethods, .synchronizedMethods, .finalMethods, .members, .publicMembers, .privateMembers,
    .protectedMembers, .staticMembers, .finalMembers, .interfaceTypes, .abstractTypes,
    .directAssociations, .indirectAssociations]

/-- The key of a counter in a JSON report. -/
def key : Counter → String
  | .methods => "methods"
  | .constructors => "constructors"
  | .publicMethods => "public_methods"
  | .privateMethods => "private_methods"
  | .staticMethods => "static_methods"
  | .abstractMethods => "abstract_methods"
  | .nativeMethods => "native_methods"
  | .synchronizedMethods => "synchronized_methods"
  | .finalMethods => "final_methods"
  | .members => "members"
  | .publicMembers => "public_members"
  | .privateMembers => "private_members"
  | .protectedMembers => "protected_members"
  | .staticMembers => "static_members"
  | .finalMembers => "final_members"
  | .interfaceTypes => "interface_types"
  | .abstractTypes => "abstract_types"
  | .directAssociations => "direct_associations"
  | .indirectAssociations => "indirect_associations"

/-- The heading of a counter in a table. -/
def label : Counter → String
  | .methods => "methods"
  | .constructors => "constructors"
  | .publicMethods => "public methods"
  | .privateMethods => "private methods"
  | .staticMethods => "static methods"
  | .abstractMethods => "abstract methods"
  | .nativeMethods => "native methods"
  | .synchronizedMethods => "synchronized methods"
  | .finalMethods => "final methods"
  | .members => "members"
  | .publicMembers => "public members"
  | .privateMembers => "private members"
  | .protectedMembers => "protected members"
  | .staticMembers => "static members"
  | .finalMembers => "final members"
  | .interfaceTypes => "interface classes"
  | .abstractTypes => "abstract classes"
  | .directAssociations => "directly associated classes"
  | .indirectAssociations => "indirectly associated classes"

end Counter

/-- The value of a counter. -/
def Metrics.count (m : Metrics) : Counter → Nat
  | .methods => m.methods
  | .constructors => m.constructors
  | .publicMethods => m.publicMethods
  | .privateMethods => m.privateMethods
  | .staticMethods => m.staticMethods
  | .abstractMethods => m.abstractMethods
  | .nativeMethods => m.nativeMethods
  | .synchronizedMethods => m.synchronizedMethods
  | .finalMethods => m.finalMethods
  | .members => m.members
  | .publicMembers => m.publicMembers
  | .privateMembers => m.privateMembers
  | .protectedMembers => m.protectedMembers
  | .staticMembers => m.staticMembers
  | .finalMembers => m.finalMembers
  | .interfaceTypes => m.interfaceTypes
  | .abstractTypes => m.abstractTypes
  | .directAssociations => m.directAssociations
  | .indirectAssociations => m.indirectAssociations

/-! ## §2 Counting -/

/-- The number of modifier sets that hold the given modifier. -/
def countWith (modifier : String) (ms : List Modifiers) : Nat :=
  ms.countP fun s => decide (modifier ∈ s)

namespace Context

variable {σ : Type}

/-- The number of the given types that have the modifier. A type that cannot be described has
    none. -/
def countTypesWith (ctx : Context σ) (modifier : String) : List TypeName → Run σ Nat
  | [] => return 0
  | t :: rest => do
    let here := match ← Run.orUnresolved (Run.ask (ctx.provider.modifiers t)) with
      | .ok ms => if modifier ∈ ms then 1 else 0
      | .error _ => 0
    return here + (← ctx.countTypesWith modifier rest)

/-- The metrics of a type. The count of indirect associations needs a walk, so the dependency graph
    may grow. -/
def metrics (ctx : Context σ) (t : TypeName) (depth : Option Int) : Run σ Metrics := do
  let methods ← Run.ask (ctx.provider.methods t)
  let fields ← Run.ask (ctx.provider.fields t)
  let references ← ctx.directReferences t
  let associated ← ctx.closure t depth
  let constructors ← Run.ask (ctx.provider.constructors t)
  let interfaceTypes ← ctx.countTypesWith "interface" references.toList
  let abstractTypes ← ctx.countTypesWith "abstract" references.toList
  let ofMethods := methods.map Method.modifiers
  let ofFields := fields.map Field.modifiers
  return {
    type := t
    methods := methods.length
    constructors := constructors.length
    publicMethods := countWith "public" ofMethods
    privateMethods := countWith "private" ofMethods
    staticMethods := countWith "static" ofMethods
    abstractMethods := countWith "abstract" ofMethods
    nativeMethods := countWith "native" ofMethods
    synchronizedMethods := countWith "synchronized" ofMethods
    finalMethods := countWith "final" ofMethods
    members := fields.length
    publicMembers := countWith "public" ofFields
    privateMembers := countWith "private" ofFields
    protectedMembers := countWith "protected" ofFields
    staticMembers := countWith "static" ofFields
    finalMembers := countWith "final" ofFields
    interfaceTypes
    abstractTypes
    directAssociations := references.size
    indirectAssociations := associated.size
    methodArgs := methods.map fun m => (m.name, m.argCount) }

/-- The number of arguments of the first method of the given name: zero if there is none, or if the
    type cannot be described. -/
def methodArgCount (ctx : Context σ) (t : TypeName) (name : String) : Run σ Nat := do
  match ← Run.orUnresolved (Run.ask (ctx.provider.methods t)) with
  | .ok methods => return ((methods.find? fun m => m.name == name).map Method.argCount).getD 0
  | .error _ => return 0

end Context

end TypeAtlas
