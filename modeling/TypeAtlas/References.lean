import TypeAtlas.Session

/-!
# Direct references

The types that the description of a type names: the types around it, inside it and above it, and
the types of its methods and fields. Primitive and array-like types are no references, a hierarchy
root is none by being extended, and no type references itself.

A type's references are computed once. Computing them also records them in the dependency graph; a
computation that fails changes neither.
-/

namespace TypeAtlas

/-- The types that a method names. -/
def Method.mentioned (m : Method) : List TypeName :=
  m.returns.toList ++ m.throws ++ m.params.filterMap id ++ m.extra

/-- The types that a field names. -/
def Field.mentioned (f : Field) : List TypeName := f.type.toList ++ f.extra

namespace Context

variable {σ : Type}

/-- All types that the description of a type names. -/
def mentioned (ctx : Context σ) (t : TypeName) : Asking σ (List TypeName) := do
  let declaring ← ctx.provider.declaringType t
  let nested ← ctx.provider.nestedTypes t
  let interfaces ← ctx.provider.interfaces t
  let above ← ctx.provider.superType t
  let enclosing ← ctx.provider.enclosingType t
  let methods ← ctx.provider.methods t
  let fields ← ctx.provider.fields t
  return declaring.toList ++ nested ++ interfaces ++
    above.toList.filter (fun n => !ctx.config.isHierarchyRoot n) ++ enclosing.toList ++
    methods.flatMap Method.mentioned ++ fields.flatMap Field.mentioned

/-- The types among the mentioned ones that are references of `t`. -/
def keepReferences (ctx : Context σ) (t : TypeName) (ns : List TypeName) : NameSet :=
  OrdSet.ofList (ns.filter fun n => !ctx.provider.isPrimitive n && n != t)

/-- Keep the direct references of a type, here and in the dependency graph. -/
def Session.learn (s : Session σ) (t : TypeName) (references : NameSet) : Session σ :=
  { s with
    descriptors := s.descriptors.insert t references
    graph := s.graph.addAll references.toList t }

/-- The direct references of a type. -/
def directReferences (ctx : Context σ) (t : TypeName) : Run σ NameSet := do
  match (← get).descriptors.get? t with
  | some references => return references
  | none =>
    Run.note (.computing t)
    let references := ctx.keepReferences t (← Run.ask (ctx.mentioned t))
    modify fun s => Session.learn s t references
    return references

/-- Whether the direct references of a type have been computed. -/
def isCached (t : TypeName) : Run σ Bool := return (← get).descriptors.contains t

end Context

end TypeAtlas
