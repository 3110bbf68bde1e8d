import TypeAtlas.Failure
import TypeAtlas.Member

/-!
# Providers of type descriptions

A provider answers what a type looks like. Each question may fail, and may change what the provider
remembers; what it remembers survives a failure.
-/

namespace TypeAtlas

/-- A question to a provider that remembers a `σ`. -/
abbrev Asking (σ α : Type) := ExceptT Failure (StateM σ) α

/-- A source of type descriptions that remembers a `σ` from question to question. -/
structure Provider (σ : Type) where
  /-- The type that an exact name stands for. -/
  resolve : String → Asking σ TypeName
  /-- The types that a possibly partial name may stand for. -/
  search : String → Asking σ (List TypeName)
  /-- The fields of a type. -/
  fields : TypeName → Asking σ (List Field)
  /-- The methods of a type. -/
  methods : TypeName → Asking σ (List Method)
  /-- The constructors of a type. -/
  constructors : TypeName → Asking σ (List Constructor)
  /-- The interfaces that a type implements. -/
  interfaces : TypeName → Asking σ (List TypeName)
  /-- The type that a type extends. -/
  superType : TypeName → Asking σ (Option TypeName)
  /-- The type that a type is a member of. -/
  declaringType : TypeName → Asking σ (Option TypeName)
  /-- The type around a type. -/
  enclosingType : TypeName → Asking σ (Option TypeName)
  /-- The types nested in a type. -/
  nestedTypes : TypeName → Asking σ (List TypeName)
  /-- The modifiers of a type. -/
  modifiers : TypeName → Asking σ Modifiers
  /-- Whether a name stands for a primitive or array-like type, which is never a reference. -/
  isPrimitive : TypeName → Bool
  /-- A number that the names in all answers together do not exceed. It bounds the length of a
      walk. -/
  capacity : σ → Nat

namespace Provider

variable {σ : Type}

/-- The question about a type, refused for the types that the provider is blind to. -/
def unlessBlind {α : Type} (blind : List TypeName) (question : TypeName → Asking σ α)
    (t : TypeName) : Asking σ α :=
  if blind.contains t then throw (.unresolved t) else question t

/-- The provider that still resolves the given names but cannot describe their types. -/
def blinding (blind : List TypeName) (p : Provider σ) : Provider σ :=
  { p with
    fields := unlessBlind blind p.fields
    methods := unlessBlind blind p.methods
    constructors := unlessBlind blind p.constructors
    interfaces := unlessBlind blind p.interfaces
    superType := unlessBlind blind p.superType
    declaringType := unlessBlind blind p.declaringType
    enclosingType := unlessBlind blind p.enclosingType
    nestedTypes := unlessBlind blind p.nestedTypes
    modifiers := unlessBlind blind p.modifiers }

end Provider

end TypeAtlas
