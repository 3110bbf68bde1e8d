import TypeAtlas.Codebase.World

/-!
# Evaluation of annotations

An annotation is evaluated against a way to look up names. It has no value if a name is not found,
or if a form does not take what it is given.
-/

namespace TypeAtlas.Codebase

/-- What the evaluation of an annotation needs to know. -/
structure Scope where
  /-- The world. -/
  world : World
  /-- What a name with dots is bound to. -/
  lookup? : Dotted → Option Value

namespace Scope

/-- The class that a name is bound to. -/
def class? (scope : Scope) (path : Dotted) : Option ClassId :=
  match scope.lookup? path with
  | some (.cls c) => some c
  | _ => none

/-- A generic class with arguments. A builtin class takes any, another one a single one. -/
def generic? (scope : Scope) (head : ClassId) (args : List Term) : Option Term :=
  match scope.world.genericKind? head, args with
  | some true, args => some (.generic true head args)
  | some false, [t] => some (.generic false head [t.converted])
  | _, _ => none

end Scope

namespace Hint

mutual

/-- The term that an annotation stands for. -/
def eval? (scope : Scope) : Hint → Option Term
  | .name path => (scope.lookup? path).map scope.world.term
  | .nothing => some .nothing
  | .any => some .any
  | .optional a => do Term.unionOf false (← Term.arguments? [← eval? scope a, .nothing])
  | .union members => do Term.unionOf false (← Term.arguments? (← evalAll? scope members))
  | .bars members => do Term.bars? (← evalAll? scope members)
  | .annotated a => do Term.tagged? (← eval? scope a)
  | .bareAnnotated => some (.cls annotatedId)
  | .bareClassVar => some .bareClassVar
  | .classVar a => do return .classVar (← Term.argument? (← eval? scope a))
  | .bareFinal => some .bareFinal
  | .final a => do return .final (← Term.argument? (← eval? scope a))
  | .generic head args => do scope.generic? (← scope.class? head) (← evalAll? scope args)
  | .alias n args => do return .alias n (← Term.arguments? (← evalAll? scope args))
  | .quote a => some (.text a)
  | .typeVar => some .typeVar
  | .newType => some .newType
  | .special s => some (.special s)

/-- The terms that annotations stand for. -/
def evalAll? (scope : Scope) : List Hint → Option (List Term)
  | [] => some []
  | a :: rest => do return (← eval? scope a) :: (← evalAll? scope rest)

end

/-- What becomes of an annotation when its statement runs. One in quotation marks is kept as its
    text, and so is every annotation of a module that defers them. -/
def note? (scope : Scope) (deferred : Bool) (a : Hint) : Option Note :=
  if deferred then some (.deferred a)
  else
    match a with
    | .quote b => some (.deferred b)
    | a => (a.eval? scope).map Note.stated

end Hint

end TypeAtlas.Codebase
