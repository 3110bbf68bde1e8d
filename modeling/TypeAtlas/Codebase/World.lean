import TypeAtlas.Codebase.Term
import TypeAtlas.Ordered.Entries

/-!
# Worlds

What has come into being by importing modules: classes, and namespaces that bind names to values. A
module that is imported anew gets a new namespace; classes that were made before stay as they are.
-/

namespace TypeAtlas.Codebase

/-! ## §1 Values -/

/-- A namespace of a module, by its place in the list of all namespaces. -/
abbrev SpaceId := Nat

/-- What has become of an annotation: it was evaluated when its statement ran, or it is kept as a
    text until somebody asks. -/
inductive Note where
  /-- The annotation was evaluated. -/
  | stated (t : Term)
  /-- The annotation is kept as its text. -/
  | deferred (a : Hint)

/-- A parameter of a function. -/
structure Param where
  /-- Its name. -/
  name : String
  /-- Its annotation. -/
  note : Option Note

/-- A function. -/
structure Function where
  /-- The namespace of the module in which it is written. -/
  home : SpaceId
  /-- Its name with the names of the classes around it. -/
  qualname : String
  /-- Its parameters. -/
  params : List Param
  /-- The annotation of its result. -/
  returns : Option Note
  /-- Whether subclasses have to override it. -/
  isAbstract : Bool
  /-- Whether subclasses must not override it. -/
  isFinal : Bool
  /-- Whether its parameters can be looked at. -/
  isReadable : Bool

/-- What a name is bound to. -/
inductive Value where
  /-- A class. -/
  | cls (c : ClassId)
  /-- A function. -/
  | function (f : Function)
  /-- A function of a class body that is called without an object. -/
  | static (f : Function)
  /-- A function of a class body that is called on the class. -/
  | classMethod (f : Function)
  /-- A function of a class body that is called by reading an attribute. -/
  | property (f : Function)
  /-- A function together with the class that it is called on. -/
  | bound (f : Function)
  /-- A module. -/
  | module (space : SpaceId)
  /-- The absent value. -/
  | nothing
  /-- Anything else. -/
  | object

namespace Value

/-- Whether a value has to be overridden in subclasses. -/
def isAbstract : Value → Bool
  | .function f => f.isAbstract
  | .static f => f.isAbstract
  | .classMethod f => f.isAbstract
  | .property f => f.isAbstract
  | .bound f => f.isAbstract
  | _ => false

/-- What reading an attribute of a class gives for the value that the class holds. -/
def throughClass : Value → Value
  | .static f => .function f
  | .classMethod f => .bound f
  | v => v

end Value

/-! ## §2 Classes -/

/-- A class. -/
structure ClassInfo where
  /-- The name of the module in which it is written. -/
  module : String
  /-- Its name. -/
  name : String
  /-- Its name with the names of the classes around it. -/
  qualname : String
  /-- Its bases. -/
  bases : List ClassId
  /-- The class and its ancestors, in the order in which they are searched for names. -/
  order : List ClassId
  /-- What its body binds. -/
  names : Entries Value := []
  /-- What its body annotates. -/
  notes : Entries Note := []
  /-- Whether it has a type parameter. -/
  isGeneric : Bool := false
  /-- Whether it is an interface. -/
  isInterface : Bool := false
  /-- Whether it is declared as final. -/
  isFinal : Bool := false
  /-- The names that subclasses have to override. -/
  abstractNames : List String := []

/-- The full name of a class. -/
def ClassInfo.fullName (c : ClassInfo) : TypeName := c.module ++ "." ++ c.qualname

/-- The module of builtin classes. -/
def builtinModule : String := "builtins"

/-- The module of the vocabulary for annotations. -/
def typingModule : String := "typing"

/-- The place of the namespace of the builtin module. -/
def builtinSpaceId : SpaceId := 0

/-- The class above all classes. -/
def objectId : ClassId := 0

/-- The base that makes a class generic. -/
def genericId : ClassId := 1

/-- The base that makes a class an interface. -/
def interfaceId : ClassId := 2

/-- The base of classes with abstract functions. -/
def abstractId : ClassId := 3

/-- The bases that say nothing about the structure of a class. -/
def helperIds : List ClassId := [objectId, genericId, interfaceId, abstractId]

/-- A function of the language itself, without annotations. The parameters of some of them cannot be
    looked at. -/
def builtinFunction (qualname : String) (params : Option (List String)) : Function where
  home := builtinSpaceId
  qualname
  params := (params.getD []).map fun name => ⟨name, none⟩
  returns := none
  isAbstract := false
  isFinal := false
  isReadable := params.isSome

/-- The functions that a class of the language itself holds and that are of the kinds that the body
    of a class defines. All others are of kinds of their own. -/
def builtinMembers (name : String) : Entries Value :=
  match name with
  | "str" => [("maketrans", .static (builtinFunction "str.maketrans" none))]
  | "bytes" => [("maketrans", .static (builtinFunction "bytes.maketrans" (some ["frm", "to"])))]
  | "bytearray" =>
    [("maketrans", .static (builtinFunction "bytearray.maketrans" (some ["frm", "to"])))]
  | "Annotated" =>
    [("__new__", .static (builtinFunction "Annotated.__new__" (some ["cls", "args", "kwargs"]))),
      ("__class_getitem__",
        .classMethod (builtinFunction "Annotated.__class_getitem__" (some ["cls", "params"]))),
      ("_class_getitem_inner",
        .function (builtinFunction "Annotated._class_getitem_inner" (some ["cls", "params"]))),
      ("__init_subclass__",
        .classMethod
          (builtinFunction "Annotated.__init_subclass__" (some ["cls", "args", "kwargs"])))]
  | _ => []

/-- A builtin class of the given name, place, base and ancestors. -/
def builtinClass (name : String) (id : ClassId) (bases ancestors : List ClassId) : ClassInfo where
  module := builtinModule
  name := name
  qualname := name
  bases := bases
  order := id :: ancestors
  names := builtinMembers name

/-- The class above all classes. -/
def objectClass : ClassInfo := builtinClass "object" objectId [] []

/-- The helper bases, which no name of the builtin module is bound to. -/
def helperClasses : List ClassInfo :=
  [builtinClass "Generic" genericId [objectId] [objectId],
    builtinClass "Protocol" interfaceId [genericId] [genericId, objectId],
    builtinClass "ABC" abstractId [objectId] [objectId]]

/-- The builtin classes whose only ancestor is the class above all classes. Those at the front can
    be given arguments. -/
def plainBuiltins : List String :=
  ["list", "tuple", "dict", "set", "frozenset", "type", "int", "float", "complex", "str", "bytes",
    "bytearray", "BaseException"]

/-- The number of builtin classes that can be given arguments. -/
def containerCount : Nat := 6

/-- The place of a builtin class among all classes. -/
def builtinId (position : Nat) : ClassId := helperIds.length + position

/-- The builtin classes with further ancestors: each with the places of its ancestors, its base
    first. -/
def derivedBuiltins : List (String × List Nat) :=
  [("bool", [6]), ("Exception", [12]), ("ValueError", [14, 12]), ("LookupError", [14, 12]),
    ("KeyError", [16, 14, 12])]

/-- The class of types with tags. -/
def annotatedId : ClassId := builtinId (plainBuiltins.length + derivedBuiltins.length)

/-- The class of types with tags, which no name of the builtin module is bound to. -/
def annotatedClass : ClassInfo :=
  { builtinClass "Annotated" annotatedId [objectId] [objectId] with module := typingModule }

/-- All classes of the language itself, helper bases included, each at its place. -/
def builtinClasses : List ClassInfo :=
  objectClass :: helperClasses ++
    plainBuiltins.mapIdx (fun i name => builtinClass name (builtinId i) [objectId] [objectId]) ++
    derivedBuiltins.mapIdx (fun i e =>
      builtinClass e.1 (builtinId (plainBuiltins.length + i)) ((e.2.map builtinId).take 1)
        (e.2.map builtinId ++ [objectId])) ++
    [annotatedClass]

/-! ## §3 Namespaces -/

/-- A namespace of a module. -/
structure Space where
  /-- The name of the module. -/
  module : String
  /-- What its names are bound to. -/
  names : Entries Value := []

/-- The namespace of the builtin module. -/
def builtinSpace : Space where
  module := builtinModule
  names :=
    ("object", .cls objectId) ::
      (plainBuiltins ++ derivedBuiltins.map Prod.fst).mapIdx
        (fun i name => (name, Value.cls (builtinId i))) ++ [("len", .object)]

/-! ## §4 The world -/

/-- What has come into being. -/
structure World where
  /-- The classes. -/
  classes : List ClassInfo
  /-- The namespaces. -/
  spaces : List Space
  /-- The modules that are imported, or being imported, with their namespaces. -/
  loaded : Entries SpaceId

namespace World

/-- The world before any import. -/
def start : World where
  classes := builtinClasses
  spaces := [builtinSpace]
  loaded := [(builtinModule, builtinSpaceId)]

/-- A class. -/
def info (w : World) (c : ClassId) : ClassInfo := (w.classes[c]?).getD objectClass

/-- A namespace. -/
def space (w : World) (s : SpaceId) : Space := (w.spaces[s]?).getD builtinSpace

/-- The full name of a class. -/
def fullName (w : World) (c : ClassId) : TypeName := (w.info c).fullName

/-- The name of a class inside the text of a type: a builtin class needs no module. -/
def shortName (w : World) (c : ClassId) : String :=
  let i := w.info c
  if i.module = builtinModule then i.qualname else i.fullName

/-- How the classes of the world are named. -/
def naming (w : World) : Naming := ⟨w.fullName, w.shortName⟩

/-- What a class or the first of its ancestors binds a name to. -/
def held? (w : World) (order : List ClassId) (name : String) : Option Value :=
  order.findSome? fun c => (w.info c).names.get? name

/-- An attribute of a value. Classes and modules have some. -/
def attribute? (w : World) : Value → String → Option Value
  | .cls c, name => (w.held? (w.info c).order name).map Value.throughClass
  | .module s, name => (w.space s).names.get? name
  | _, _ => none

/-- What is found from a value on along attributes. -/
def follow? (w : World) (v : Value) (path : Dotted) : Option Value :=
  path.foldlM w.attribute? v

/-- Whether a class can be given arguments, and whether it is a builtin one then. -/
def genericKind? (w : World) (c : ClassId) : Option Bool :=
  if builtinId 0 ≤ c ∧ c < builtinId containerCount then some true
  else if (w.info c).isGeneric then some false
  else none

/-- Whether a class or one of its ancestors keeps track of abstract names. -/
def tracksAbstract (order : List ClassId) : Bool :=
  order.contains abstractId || order.contains interfaceId

end World

/-- The values that stand for words of the language and not for names. -/
def constant? (name : String) : Option Value :=
  if name = "None" then some .nothing
  else if name = "True" ∨ name = "False" then some .object
  else none

/-- The term that a value stands for in an annotation. -/
def World.term (w : World) : Value → Term
  | .cls c => .cls c
  | .nothing => .nothing
  | .function f => .function (w.space f.home).module f.qualname
  | _ => .object

end TypeAtlas.Codebase
