import TypeAtlas.References

/-!
# Neighbourhoods

The types next to a type: those that it references, and those that are known to reference it. The
second list grows as more types are looked at.
-/

namespace TypeAtlas

/-- The types next to a type. -/
structure Neighbourhood where
  /-- The type in the middle. -/
  target : TypeName
  /-- The types that it references. -/
  references : NameSet
  /-- The types that are known to reference it, in order. -/
  referrers : List TypeName
  deriving DecidableEq

/-- The types next to a type. -/
def Context.neighbourhood {σ : Type} (ctx : Context σ) (t : TypeName) : Run σ Neighbourhood := do
  let references ← ctx.directReferences t
  return { target := t, references, referrers := (← Run.graph).referrers t }

end TypeAtlas
