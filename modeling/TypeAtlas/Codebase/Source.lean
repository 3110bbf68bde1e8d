import TypeAtlas.Text.Quoted

/-!
# Source code

What this library knows of the source code of a codebase: modules whose statements bind names,
classes with bodies of such statements, functions with annotated parameters, and annotations.
-/

namespace TypeAtlas

/-- A name with dots in it, component by component. -/
abbrev Dotted := List String

/-- Split a list of characters at its dots. -/
def splitDotsFrom (acc : List Char) : List Char → List String
  | [] => [String.ofList acc.reverse]
  | '.' :: rest => String.ofList acc.reverse :: splitDotsFrom [] rest
  | c :: rest => splitDotsFrom (c :: acc) rest

/-- The components of a name with dots in it. -/
def Dotted.ofString (s : String) : Dotted := splitDotsFrom [] s.toList

/-- A name written with its dots. -/
def Dotted.text (d : Dotted) : String := ".".intercalate d

namespace Codebase

/-! ## §1 Annotations -/

/-- Something that is no generic type and yet has an origin as one has. -/
inductive Special where
  /-- The positional arguments of a parameter list. -/
  | positional
  /-- The named arguments of a parameter list. -/
  | named
  /-- The base of generic classes. -/
  | genericBase
  deriving Repr, DecidableEq

namespace Special

/-- The text of it, in an annotation and inside the text of a type. -/
def text : Special → String
  | .positional => "P.args"
  | .named => "P.kwargs"
  | .genericBase => "typing.Generic"

/-- The text of it by itself. -/
def alone : Special → String
  | .genericBase => "<class 'typing.Generic'>"
  | s => s.text

end Special

/-- An annotation as it is written. -/
inductive Hint where
  /-- A name. -/
  | name (path : Dotted)
  /-- The absent value. -/
  | nothing
  /-- Any type at all. -/
  | any
  /-- A type or the absent value. -/
  | optional (a : Hint)
  /-- A union, spelled as a form. -/
  | union (members : List Hint)
  /-- A union, spelled with bars. -/
  | bars (members : List Hint)
  /-- A type with a tag. -/
  | annotated (a : Hint)
  /-- The class of types with tags. -/
  | bareAnnotated
  /-- A class variable of some type. -/
  | bareClassVar
  /-- A class variable of a type. -/
  | classVar (a : Hint)
  /-- A constant of some type. -/
  | bareFinal
  /-- A constant of a type. -/
  | final (a : Hint)
  /-- A generic class with arguments. -/
  | generic (head : Dotted) (args : List Hint)
  /-- A generic alias of the `typing` vocabulary, with or without arguments. -/
  | alias (name : String) (args : List Hint)
  /-- An annotation in quotation marks. -/
  | quote (a : Hint)
  /-- A type variable. -/
  | typeVar
  /-- A new type over an old one. -/
  | newType
  /-- Something else that has an origin. -/
  | special (s : Special)
  deriving Inhabited

namespace Hint

/-- The tag of tagged types, in quotation marks. -/
def tag : String := "'tag'"

mutual

/-- The text of an annotation. -/
def text : Hint → String
  | .name path => path.text
  | .nothing => "None"
  | .any => "typing.Any"
  | .optional a => "typing.Optional[" ++ text a ++ "]"
  | .union members => "typing.Union[" ++ ", ".intercalate (texts members) ++ "]"
  | .bars members => " | ".intercalate (texts members)
  | .annotated a => "typing.Annotated[" ++ text a ++ ", " ++ tag ++ "]"
  | .bareAnnotated => "typing.Annotated"
  | .bareClassVar => "typing.ClassVar"
  | .classVar a => "typing.ClassVar[" ++ text a ++ "]"
  | .bareFinal => "typing.Final"
  | .final a => "typing.Final[" ++ text a ++ "]"
  | .generic head args => head.text ++ "[" ++ ", ".intercalate (texts args) ++ "]"
  | .alias n [] => "typing." ++ n
  | .alias n args => "typing." ++ n ++ "[" ++ ", ".intercalate (texts args) ++ "]"
  | .quote a => Text.quoted (text a)
  | .typeVar => "T"
  | .newType => "N"
  | .special s => s.text

/-- The texts of annotations. -/
def texts : List Hint → List String
  | [] => []
  | a :: rest => text a :: texts rest

end

mutual

/-- The number of forms in an annotation. -/
def size : Hint → Nat
  | .optional a => size a + 1
  | .union members => sizes members + 1
  | .bars members => sizes members + 1
  | .annotated a => size a + 1
  | .classVar a => size a + 1
  | .final a => size a + 1
  | .generic _ args => sizes args + 1
  | .alias _ args => sizes args + 1
  | .quote a => size a + 1
  | _ => 1

/-- The number of forms in annotations. -/
def sizes : List Hint → Nat
  | [] => 0
  | a :: rest => size a + sizes rest

end

end Hint

/-! ## §2 Statements -/

/-- A parameter of a function. A bare star or slash is a marker and no parameter; stars in front of
    a name say how the parameter collects arguments. -/
structure ParamDecl where
  /-- The parameter as it is written. -/
  name : String
  /-- Its annotation. -/
  hint : Option Hint := none

/-- How a function in a class body is called. -/
inductive FunctionKind where
  /-- On an object, which is its first argument. -/
  | method
  /-- Without an object. -/
  | static
  /-- On the class, which is its first argument. -/
  | classMethod
  /-- By reading an attribute. -/
  | property
  deriving Repr, DecidableEq

/-- A function. -/
structure FunctionDecl where
  /-- Its name. -/
  name : String
  /-- How it is called. -/
  kind : FunctionKind := .method
  /-- Its parameters and markers. -/
  params : List ParamDecl := []
  /-- The annotation of its result. -/
  returns : Option Hint := none
  /-- Whether subclasses have to override it. -/
  isAbstract : Bool := false
  /-- Whether subclasses must not override it. -/
  isFinal : Bool := false
  /-- Whether its parameters can be looked at. -/
  isReadable : Bool := true

/-- A base of a class. -/
inductive BaseDecl where
  /-- The base that makes a class an interface. -/
  | interface
  /-- The base of classes with abstract functions. -/
  | abstract
  /-- The base of classes with one type parameter. -/
  | generic
  /-- A class. -/
  | named (path : Dotted)

/-- The right-hand side of an assignment. -/
inductive Expression where
  /-- The absent value. -/
  | nothing
  /-- A literal. -/
  | literal
  /-- A name. -/
  | name (path : Dotted)

/-- A statement of a module or of a class body. -/
inductive Item where
  /-- A class, which may be defined inside a function. -/
  | cls (within : Option String) (name : String) (bases : List BaseDecl) (body : List Item)
      (isFinal : Bool)
  /-- An annotated name without a value. -/
  | field (name : String) (hint : Hint)
  /-- A function. -/
  | function (decl : FunctionDecl)
  /-- A nameless function bound to a name. -/
  | lambda (name : String) (params : List String)
  /-- An assignment. -/
  | assign (name : String) (value : Expression)
  /-- Unbinds a name. -/
  | delete (name : String)
  /-- Imports a module and binds its first component. -/
  | importModule (module : Dotted)
  /-- Imports a module and binds some of its names. -/
  | importNames (module : Dotted) (names : List String)
  deriving Inhabited

/-! ## §3 Modules -/

/-- A module. -/
structure Module where
  /-- Its name. -/
  name : Dotted
  /-- Its statements. -/
  items : List Item
  /-- Whether all its annotations stand for their text. -/
  defersAnnotations : Bool := false
  /-- The kind of error in which its code ends, if it does. -/
  raises : Option String := none

/-- The number of forms in the annotations of a function. -/
def FunctionDecl.size (f : FunctionDecl) : Nat :=
  Hint.sizes (f.params.filterMap ParamDecl.hint ++ f.returns.toList)

mutual

/-- The number of classes and of annotation forms in a statement. -/
def Item.size : Item → Nat
  | .cls _ _ _ body _ => 1 + itemSizes body
  | .field _ hint => hint.size
  | .function decl => decl.size
  | _ => 0

/-- The number of classes and of annotation forms in statements. -/
def itemSizes : List Item → Nat
  | [] => 0
  | i :: rest => i.size + itemSizes rest

end

end Codebase

/-- The modules that can be imported. -/
structure Codebase where
  /-- The modules. -/
  modules : List Codebase.Module

namespace Codebase

/-- The number of classes and of annotation forms in a codebase. -/
def size (code : Codebase) : Nat := itemSizes (code.modules.flatMap Module.items)

/-- The module of a name. -/
def find? (code : Codebase) (name : Dotted) : Option Module :=
  code.modules.find? fun m => m.name == name

/-- Whether a module holds other modules. -/
def isPackage (code : Codebase) (name : Dotted) : Bool :=
  code.modules.any fun m => name.length < m.name.length && name.isPrefixOf m.name

end Codebase

end TypeAtlas
