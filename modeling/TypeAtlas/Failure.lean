import TypeAtlas.Name

/-!
# Failures

Why a question has no answer, and the words for it.
-/

namespace TypeAtlas

/-- Why a module cannot be imported, other than that there is none of its name. -/
inductive ImportFault where
  /-- The name of the module is empty. -/
  | emptyName
  /-- The name of the module begins with a dot and says nothing about what it is relative to. -/
  | relativeName (module : String)
  /-- The code of a module ended in an error of the given kind. -/
  | raised (kind : String)
  deriving Repr, DecidableEq

/-- Why a question has no answer. -/
inductive Failure where
  /-- No type of this name can be described. -/
  | unresolved (name : TypeName)
  /-- The depth of a walk is no bound. -/
  | depthBelow (depth : Int)
  /-- A module that the question needs cannot be imported. -/
  | importing (fault : ImportFault)
  deriving Repr, DecidableEq

/-- The words for a fault of importing. What the code of a module says when it fails is its own
    affair, unless it fails for a bad value. -/
def ImportFault.message? : ImportFault → Option String
  | .emptyName => some "Empty module name"
  | .relativeName m =>
    some ("the 'package' argument is required to perform a relative import for '" ++ m ++ "'")
  | .raised kind => if kind = "ValueError" then some "import failed" else none

/-- The words for a failure, where they are fixed. -/
def Failure.message? : Failure → Option String
  | .unresolved name => some ("Type not found: " ++ name)
  | .depthBelow d => some ("max_depth must be -1 (unbounded) or >= 0, got " ++ toString d)
  | .importing fault => fault.message?

end TypeAtlas
