import TypeAtlas.Session

/-!
# Resolutions

The types that a name given by a person may stand for.
-/

namespace TypeAtlas

/-- The types that a name may stand for. -/
structure Resolution where
  /-- The name as given. -/
  query : String
  /-- The types, best guess first. -/
  candidates : List TypeName
  deriving Repr, DecidableEq

namespace Resolution

/-- Whether the name may stand for any type. -/
def found (r : Resolution) : Bool := !r.candidates.isEmpty

/-- Whether the name stands for one type only. -/
def unique (r : Resolution) : Bool := r.candidates.length == 1

end Resolution

/-- The types that a name may stand for. -/
def Context.resolution {σ : Type} (ctx : Context σ) (name : String) : Run σ Resolution :=
  return { query := name, candidates := ← Run.ask (ctx.provider.search name) }

end TypeAtlas
