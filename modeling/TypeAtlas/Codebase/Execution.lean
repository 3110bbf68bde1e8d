import TypeAtlas.Codebase.Evaluation
import TypeAtlas.Codebase.Linearization
import TypeAtlas.Failure

/-!
# Importing modules

Importing a module runs its statements in a new namespace, after the packages around it have been
imported. While it runs it counts as imported, so modules may import each other. A module whose code
fails does not stay imported, but what it imported and what it made does.

Main definitions: `runItem` runs a statement and says what it does to the names around it, and
`Codebase.importModule` imports a module by its name.
-/

namespace TypeAtlas.Codebase

/-! ## §1 Running -/

/-- Why an import ends without a module. -/
inductive ImportFailure where
  /-- There is no module of the name, or its code fails in the same way. -/
  | missing
  /-- Importing is impossible for another reason. -/
  | fault (fault : ImportFault)
  deriving Repr, DecidableEq

/-- Something that runs in a world. What it did to the world before it failed stays done. -/
abbrev Exec (α : Type) := ExceptT ImportFailure (StateM World) α

/-- The kinds of error that mean that a module is missing. -/
def missingKinds : List String := ["ImportError", "ModuleNotFoundError"]

/-- End in an error of a kind. -/
def raise {α : Type} (kind : String) : Exec α :=
  throw (if missingKinds.contains kind then .missing else .fault (.raised kind))

/-- A result that is needed, or an error. -/
def need {α : Type} (kind : String) : Option α → Exec α
  | some a => pure a
  | none => raise kind

/-- The kind of error for a name that is not bound. -/
def unboundKind : String := "NameError"

/-- The kind of error for a thing that cannot be used in its place. -/
def misuseKind : String := "TypeError"

/-! ## §2 Scopes -/

/-- What the body of a class has bound and annotated so far. -/
structure Frame where
  /-- The name of the class. -/
  owner : String
  /-- The name of the class with the names of the classes around it. -/
  qualname : String
  /-- What is bound. -/
  names : Entries Value := []
  /-- What is annotated. -/
  notes : Entries Note := []

/-- Where a statement runs. -/
structure Place where
  /-- The namespace of the module. -/
  space : SpaceId
  /-- Whether annotations are kept as texts. -/
  defers : Bool
  /-- The body of the class around the statement. -/
  frame : Option Frame := none

/-- Whether a name is private to the body of its class: it begins with two underscores and does not
    end with two. -/
def isPrivateName (name : String) : Bool :=
  let cs := name.toList
  ['_', '_'].isPrefixOf cs && !(['_', '_'].isSuffixOf cs)

/-- A name without the underscores at its front. -/
def withoutUnderscores (name : String) : String :=
  String.ofList (name.toList.dropWhile (· == '_'))

/-- The name under which the body of a class knows a private name: with the name of the class in
    front. -/
def mangle (owner name : String) : String :=
  let owner := withoutUnderscores owner
  if isPrivateName name && owner != "" then "_" ++ owner ++ name else name

namespace Place

/-- The name under which a name is known here. -/
def mangled (place : Place) (name : String) : String :=
  match place.frame with
  | some frame => mangle frame.owner name
  | none => name

/-- The name of something defined here, with the names of the classes around it. -/
def qualified (place : Place) (name : String) : String :=
  match place.frame with
  | some frame => frame.qualname ++ "." ++ name
  | none => name

/-- What a name is bound to here: by the body of the class, by the module, or by the builtin
    module. The bodies of classes further out do not count. -/
def lookup? (place : Place) (w : World) (name : String) : Option Value :=
  (constant? name).or <|
    ((place.frame.bind fun frame => frame.names.get? name).or
      ((w.space place.space).names.get? name)).or
        ((w.space builtinSpaceId).names.get? name)

/-- Whether a name is bound by the statements of this body or module. -/
def binds (place : Place) (w : World) (name : String) : Bool :=
  match place.frame with
  | some frame => frame.names.has name
  | none => (w.space place.space).names.has name

/-- How annotations and bases are evaluated here. -/
def scope (place : Place) (w : World) : Scope where
  world := w
  lookup? path :=
    match path.map place.mangled with
    | [] => none
    | name :: rest => (place.lookup? w name).bind fun v => w.follow? v rest

end Place

/-! ## §3 Effects -/

/-- What a statement does to the names around it. -/
inductive Effect where
  /-- Binds a name. -/
  | bind (name : String) (value : Value)
  /-- Unbinds a name. -/
  | unbind (name : String)
  /-- Annotates a name. -/
  | annotate (name : String) (note : Note)

/-- The body of a class after an effect. -/
def Frame.apply (frame : Frame) : Effect → Frame
  | .bind name value => { frame with names := frame.names.put name value }
  | .unbind name => { frame with names := frame.names.erase name }
  | .annotate name note => { frame with notes := frame.notes.put name note }

/-- Change a namespace. -/
def World.updateSpace (w : World) (s : SpaceId) (f : Space → Space) : World :=
  { w with spaces := w.spaces.modify s f }

/-- The world after an effect on a namespace. Modules keep no annotations. -/
def World.apply (w : World) (s : SpaceId) : Effect → World
  | .bind name value => w.updateSpace s fun sp => { sp with names := sp.names.put name value }
  | .unbind name => w.updateSpace s fun sp => { sp with names := sp.names.erase name }
  | .annotate _ _ => w

/-! ## §4 Functions and classes -/

/-- A parameter, unless it is a marker. The stars in front of a name are no part of it. -/
def paramName? (written : String) : Option String :=
  if written = "*" ∨ written = "/" then none
  else some (String.ofList (written.toList.dropWhile (· == '*')))

/-- What becomes of an optional annotation. -/
def noteOf? (place : Place) (w : World) : Option Hint → Option (Option Note)
  | none => some none
  | some a => (a.note? (place.scope w) place.defers).map some

/-- The parameters of a function. -/
def paramsOf? (place : Place) (w : World) (decls : List ParamDecl) : Option (List Param) :=
  (decls.filterMap fun d => (paramName? d.name).map fun name => (place.mangled name, d)).mapM
    fun (name, d) => (noteOf? place w d.hint).map (Param.mk name)

/-- The function that a declaration makes. -/
def functionOf? (place : Place) (w : World) (decl : FunctionDecl) : Option Function := do
  let params ← paramsOf? place w decl.params
  let returns ← noteOf? place w decl.returns
  return {
    home := place.space
    qualname := place.qualified decl.name
    params, returns
    isAbstract := decl.isAbstract
    isFinal := decl.isFinal
    isReadable := decl.isReadable }

/-- The name of the function that makes an object. It is called without an object. -/
def allocatorName : String := "__new__"

/-- The names of the functions that are called on the class whatever their declarations say. -/
def alwaysOnClass : List String := ["__init_subclass__", "__class_getitem__"]

/-- The value of a function that is declared in the body of a class. What a declaration under one of
    the special names says does not count. -/
def memberValue (decl : FunctionDecl) (f : Function) : Value :=
  if decl.name = allocatorName ∨ alwaysOnClass.contains decl.name then .function f
  else
    match decl.kind with
    | .method => .function f
    | .static => .static f
    | .classMethod => .classMethod f
    | .property => .property f

/-- What a class holds under a name that its body has bound: a plain function under one of the
    special names becomes one that is called without an object, or on the class. -/
def heldValue (name : String) : Value → Value
  | .function f =>
    if name = allocatorName then .static f
    else if alwaysOnClass.contains name then .classMethod f
    else .function f
  | v => v

/-- The name of a nameless function. -/
def lambdaName : String := "<lambda>"

/-- A function without a name, whose parameters have no annotations. -/
def lambdaOf (place : Place) (params : List String) : Function where
  home := place.space
  qualname := place.qualified lambdaName
  params := (params.filterMap paramName?).map fun name => ⟨place.mangled name, none⟩
  returns := none
  isAbstract := false
  isFinal := false
  isReadable := true

/-- What a name with dots is bound to at a place. -/
def valueOf (place : Place) (path : Dotted) : Exec Value := do
  need unboundKind ((place.scope (← get)).lookup? path)

/-- The class of a base. -/
def baseOf (place : Place) : BaseDecl → Exec ClassId
  | .interface => return interfaceId
  | .abstract => return abstractId
  | .generic => return genericId
  | .named path => do
    match ← valueOf place path with
    | .cls c => return c
    | _ => raise misuseKind

/-- The bases of a class. An interface is generic without a base for it, and a class without bases
    stands below the class above all classes. -/
def basesOf (place : Place) (decls : List BaseDecl) : Exec (List ClassId) := do
  let bases ← decls.mapM (baseOf place)
  let bases := if bases.contains interfaceId then bases.filter (· != genericId) else bases
  return if bases.isEmpty then [objectId] else bases

/-- The names that subclasses of a new class have to override: its own abstract functions, and what
    it has not overridden of what its bases leave open. -/
def abstractNamesOf (w : World) (names : Entries Value) (bases ancestors : List ClassId) :
    List String :=
  let own := (names.filter fun e => e.2.isAbstract).map Prod.fst
  let left := (bases.flatMap fun b => (w.info b).abstractNames).filter fun name =>
    (((names.get? name).or (w.held? ancestors name)).map Value.isAbstract).getD false
  own ++ left

/-- The values that every class holds, unless its body binds their names. -/
def standardNames : List (String × Value) := [("__module__", .object), ("__doc__", .nothing)]

/-- Make a class of the given bases out of what its body has done. -/
def makeClass (place : Place) (frame : Frame) (bases : List ClassId) (decls : List BaseDecl)
    (isFinal : Bool) : Exec ClassId := do
  let w ← get
  let c := w.classes.length
  let order ← need misuseKind (linearize? c bases (bases.map fun b => (w.info b).order))
  let extra := standardNames.filter fun e => !frame.names.has e.1
  let info : ClassInfo := {
    module := (w.space place.space).module
    name := frame.owner
    qualname := frame.qualname
    bases, order
    names := frame.names.map (fun e => (e.1, heldValue e.1 e.2)) ++ extra
    notes := frame.notes
    isGeneric := decls.any fun d => match d with
      | .generic => true
      | _ => false
    isInterface := bases.contains interfaceId
    isFinal
    abstractNames :=
      if World.tracksAbstract order then abstractNamesOf w frame.names bases order.tail else [] }
  set { w with classes := w.classes ++ [info] }
  return c

/-! ## §5 Statements -/

/-- How a statement imports modules. -/
structure Importer where
  /-- Import a module. -/
  load : Dotted → Exec SpaceId
  /-- Whether a module holds other modules. -/
  isPackage : Dotted → Bool

namespace Importer

/-- Import the module of a name inside a package, if there is one. -/
def loadInner (importer : Importer) (module : Dotted) (name : String) : Exec Unit :=
  ExceptT.mk fun w =>
    match (importer.load (module ++ [name])).run w with
    | (.error (.fault fault), w) => (.error (.fault fault), w)
    | (_, w) => (.ok (), w)

/-- What importing a name from a module binds it to: what the module binds it to, or else a module
    inside it. -/
def imported (module : Dotted) (space : SpaceId) (name : String) : Exec Value := do
  let w ← get
  match (w.space space).names.get? name with
  | some v => return v
  | none =>
    match w.loaded.get? (Dotted.text (module ++ [name])) with
    | some s => return .module s
    | none => throw .missing

/-- Import names from a module. -/
def names (importer : Importer) (module : Dotted) (names : List String) :
    Exec (List (String × Value)) := do
  let space ← importer.load module
  if importer.isPackage module then
    names.forM fun name => do
      unless ((← get).space space).names.has name do importer.loadInner module name
  names.mapM fun name => return (name, ← imported module space name)

/-- Import a module, and then the first module on the way to it, which may be imported no longer. -/
def first (importer : Importer) (module : Dotted) : Exec (String × SpaceId) := do
  let _ ← importer.load module
  let name := (module.head?).getD ""
  return (name, ← importer.load [name])

end Importer

/-- The right-hand side of an assignment. -/
def evaluate (place : Place) : Expression → Exec Value
  | .nothing => return .nothing
  | .literal => return .object
  | .name path => valueOf place path

mutual

/-- Run a statement. A class has its body run first, in a frame of its own. -/
def runItem (importer : Importer) (place : Place) : Item → Exec (List Effect)
  | .cls within name bases body isFinal => do
    let bases' ← basesOf place bases
    let qualname :=
      match within with
      | some function => place.qualified function ++ ".<locals>." ++ name
      | none => place.qualified name
    let frame ← runBody importer place { owner := name, qualname } body
    let c ← makeClass place frame bases' bases isFinal
    return (within.map fun function => Effect.bind (place.mangled function) .object).toList ++
      [.bind (place.mangled name) (.cls c)]
  | .field name hint => do
    let note ← need unboundKind (hint.note? (place.scope (← get)) place.defers)
    return [.annotate (place.mangled name) note]
  | .function decl => do
    let f ← need unboundKind (functionOf? place (← get) decl)
    let value := if place.frame.isSome then memberValue decl f else .function f
    return [.bind (place.mangled decl.name) value]
  | .lambda name params => return [.bind (place.mangled name) (.function (lambdaOf place params))]
  | .assign name value => return [.bind (place.mangled name) (← evaluate place value)]
  | .delete name => do
    let name := place.mangled name
    unless place.binds (← get) name do raise unboundKind
    return [.unbind name]
  | .importModule module => do
    let (name, space) ← importer.first module
    return [.bind (place.mangled name) (.module space)]
  | .importNames module names =>
    return (← importer.names module names).map fun (name, v) => .bind (place.mangled name) v

/-- Run the body of a class. -/
def runBody (importer : Importer) (place : Place) (frame : Frame) : List Item → Exec Frame
  | [] => return frame
  | item :: rest => do
    let effects ← runItem importer { place with frame := some frame } item
    runBody importer place (effects.foldl Frame.apply frame) rest

end

/-- Run the statements of a module. -/
def runModule (importer : Importer) (place : Place) : List Item → Exec Unit
  | [] => return
  | item :: rest => do
    let effects ← runItem importer place item
    modify fun w => effects.foldl (fun w e => w.apply place.space e) w
    runModule importer place rest

/-! ## §6 Modules -/

/-- Run the code of a module in a namespace that is already there. -/
def runCode (importer : Importer) (m : Module) (space : SpaceId) : Exec Unit := do
  runModule importer { space, defers := m.defersAnnotations } m.items
  match m.raises with
  | some kind => raise kind
  | none => return

/-- Make a module: it counts as imported while its code runs, and no longer if its code fails. -/
def makeModule (importer : Importer) (m : Module) : Exec SpaceId :=
  ExceptT.mk fun w =>
    let name := m.name.text
    let space := w.spaces.length
    let w := { w with
      spaces := w.spaces ++ [{ module := name }]
      loaded := w.loaded.put name space }
    match (runCode importer m space).run w with
    | (.ok (), w) => (.ok space, w)
    | (.error failure, w) => (.error failure, { w with loaded := w.loaded.erase name })

/-- Bind a module inside the package that holds it. -/
def bindInPackage (package : Dotted) (name : String) (space : SpaceId) : Exec Unit :=
  modify fun w =>
    match w.loaded.get? package.text with
    | some p => w.apply p (.bind name (.module space))
    | none => w

/-- Import a module that is not yet imported, whose packages are. -/
def makeInner (code : Codebase) (importer : Importer) (package : Dotted) (name : String) :
    Exec SpaceId := do
  if !package.isEmpty && !code.isPackage package then throw .missing
  match code.find? (package ++ [name]) with
  | none => throw .missing
  | some m =>
    let space ← makeModule importer m
    bindInPackage package name space
    return space

/-- Import a module by the components of its name, last one first. The package that holds it is
    imported first, and may already import it. -/
def ensure (code : Codebase) (importer : Importer) : List String → Exec SpaceId
  | [] => throw .missing
  | name :: outer => do
    let package := outer.reverse
    let full := Dotted.text (package ++ [name])
    match (← get).loaded.get? full with
    | some space => return space
    | none =>
      unless outer.isEmpty do let _ ← ensure code importer outer
      match (← get).loaded.get? full with
      | some space => return space
      | none => makeInner code importer package name

/-- Import a module. Imports nest no deeper than there are modules, since a module that is being
    imported is not imported again. -/
def importWithin (code : Codebase) : Nat → Dotted → Exec SpaceId
  | 0, _ => throw .missing
  | fuel + 1, module =>
    ensure code { load := importWithin code fuel, isPackage := code.isPackage } module.reverse

/-- Import a module by its name, which is not empty and does not begin with a dot. -/
def importModule (code : Codebase) (name : String) : Exec SpaceId :=
  if name = "" then throw (.fault .emptyName)
  else if name.toList.head? = some '.' then throw (.fault (.relativeName name))
  else importWithin code (code.modules.length + 1) (Dotted.ofString name)

end TypeAtlas.Codebase
