import TypeAtlas.Codebase.World
import TypeAtlas.Codebase.Evaluation
import TypeAtlas.Member

/-!
# Descriptions of classes

What a class of a world looks like: its fields are the annotated names of its body, its methods and
constructors the functions that its body defines. A description mentions types; which names they
have depends on the world alone.
-/

namespace TypeAtlas.Codebase

/-! ## §1 Annotations, evaluated when asked for -/

namespace World

/-- What a name is bound to in an annotation that was kept as a text: by the class, by the class's
    own name, by the module, or by the builtin module. -/
def lookupLate? (w : World) (c : ClassId) (space : Option SpaceId) (name : String) : Option Value :=
  let i := w.info c
  (((constant? name).or (i.names.get? name)).or
    (if name = i.name then some (.cls c) else none)).or
    ((space.bind fun s => (w.space s).names.get? name).or
      ((w.space builtinSpaceId).names.get? name))

/-- How the annotations of a class that were kept as texts are evaluated. -/
def lateScope (w : World) (c : ClassId) (space : Option SpaceId) : Scope where
  world := w
  lookup?
    | [] => none
    | name :: rest => (w.lookupLate? c space name).bind fun v => w.follow? v rest

/-- The term of an annotation of a class. One that cannot be evaluated may be any type. -/
def termOf (w : World) (c : ClassId) (space : Option SpaceId) : Note → Term
  | .stated t => t
  | .deferred a => (a.eval? (w.lateScope c space)).getD .any

end World

/-! ## §2 Visibility -/

/-- The visibility of a name: names with underscores in front are private or protected. The name of
    the class in front marks a name that was private in its body. -/
def visibility (owner : Option String) (name : String) : String :=
  let cs := name.toList
  let marked := match owner with
    | some owner =>
      ('_' :: (owner.toList.dropWhile (· == '_')) ++ ['_', '_']).isPrefixOf cs
    | none => false
  let twice := ['_', '_'].isPrefixOf cs
  if marked || (twice && !(['_', '_'].isSuffixOf cs)) then "private"
  else if ['_'].isPrefixOf cs && !twice then "protected"
  else "public"

/-! ## §3 Fields -/

/-- A field, with all types that its annotation names. -/
structure FieldDescription where
  /-- Its name. -/
  name : String
  /-- Its modifiers. -/
  modifiers : List String
  /-- The types that it mentions. -/
  mentions : List Mention

/-- The modifiers that a term gives to a field. -/
def Term.fieldModifiers : Term → List String
  | .bareClassVar => ["static"]
  | .classVar _ => ["static"]
  | .bareFinal => ["final"]
  | .final _ => ["final"]
  | _ => []

/-- The fields of a class. -/
def World.fieldsOf (w : World) (c : ClassId) : List FieldDescription :=
  let i := w.info c
  let space := w.loaded.get? i.module
  i.notes.map fun (name, note) =>
    let t := w.termOf c space note
    { name, modifiers := visibility (some i.name) name :: t.fieldModifiers,
      mentions := t.mentions w.naming }

/-- The field as other types see it. The first type that it mentions is its type. -/
def FieldDescription.field (d : FieldDescription) : Field where
  name := d.name
  type := d.mentions.head?.map Mention.name
  modifiers := OrdSet.ofList d.modifiers
  extra := d.mentions.tail.map Mention.name

/-! ## §4 Functions -/

/-- A function that the body of a class defines. -/
structure Member where
  /-- The name that it is bound to. -/
  name : String
  /-- The function. -/
  function : Function
  /-- Its modifiers. -/
  modifiers : List String
  /-- Whether its first parameter stands for the object or the class. -/
  takesOwner : Bool

/-- The function of a value, with the modifiers that come from the way it is called, and whether
    its first parameter stands for the object or the class. -/
def Value.callable? : Value → Option (Function × List String × Bool)
  | .function f => some (f, [], true)
  | .static f => some (f, ["static"], false)
  | .classMethod f => some (f, ["classmethod"], true)
  | .property f => some (f, ["property"], true)
  | _ => none

/-- A bound name as a member of a class. A function from elsewhere is none. -/
def ClassInfo.member? (i : ClassInfo) (name : String) (v : Value) : Option Member :=
  v.callable?.bind fun (f, kinds, takesOwner) =>
    if (i.qualname ++ ".").toList.isPrefixOf f.qualname.toList then
      some {
        name, function := f, takesOwner
        modifiers := visibility (some i.name) name :: kinds ++
          (if f.isAbstract then ["abstract"] else []) ++ (if f.isFinal then ["final"] else []) }
    else none

/-- The members of a class, in the order of its body. -/
def ClassInfo.members (i : ClassInfo) : List Member :=
  i.names.filterMap fun (name, v) => i.member? name v

/-- The name of the function that makes an object ready. -/
def constructorName : String := "__init__"

/-- A function with all types that its annotations name. -/
structure CallableDescription where
  /-- Its name. -/
  name : String
  /-- Its modifiers. -/
  modifiers : List String
  /-- The types that each parameter mentions, the one for the object or class apart. -/
  params : List (List Mention)
  /-- The types that the result mentions. -/
  returns : List Mention

namespace CallableDescription

/-- All types that a function mentions. -/
def mentions (d : CallableDescription) : List Mention := d.params.flatten ++ d.returns

/-- The types that a place mentions beyond the first. -/
def extra (d : CallableDescription) : List TypeName :=
  (d.params.flatMap List.tail ++ d.returns.tail).map Mention.name

/-- The types of the parameters. -/
def paramTypes (d : CallableDescription) : List (Option TypeName) :=
  d.params.map fun ms => ms.head?.map Mention.name

/-- The function as a method. -/
def method (d : CallableDescription) : Method where
  name := d.name
  returns := d.returns.head?.map Mention.name
  params := d.paramTypes
  modifiers := OrdSet.ofList d.modifiers
  extra := d.extra

/-- The function as a constructor. -/
def constructor (d : CallableDescription) : Constructor where
  params := d.paramTypes
  modifiers := OrdSet.ofList d.modifiers
  extra := d.extra

end CallableDescription

namespace World

/-- The types that an optional annotation of a function mentions. -/
def mentionsOf (w : World) (c : ClassId) (f : Function) (note : Option Note) : List Mention :=
  match note with
  | some note => (w.termOf c (some f.home) note).mentions w.naming
  | none => []

/-- The description of a member. -/
def describe (w : World) (c : ClassId) (m : Member) : CallableDescription :=
  let params := if m.function.isReadable then m.function.params else []
  let params := if m.takesOwner then params.tail else params
  { name := m.name
    modifiers := m.modifiers
    params := params.map fun p => w.mentionsOf c m.function p.note
    returns := w.mentionsOf c m.function m.function.returns }

/-- The methods of a class. -/
def methodsOf (w : World) (c : ClassId) : List CallableDescription :=
  ((w.info c).members.filter fun m => m.name != constructorName).map (w.describe c)

/-- The constructors of a class: one at most. -/
def constructorsOf (w : World) (c : ClassId) : List CallableDescription :=
  (((w.info c).members.find? fun m => m.name == constructorName).map (w.describe c)).toList

/-! ## §5 Relations to other classes -/

/-- The bases of a class that say something about its structure. -/
def structuralBases (w : World) (c : ClassId) : List ClassId :=
  (w.info c).bases.filter fun b => !helperIds.contains b

/-- The interfaces that a class implements. -/
def interfacesOf (w : World) (c : ClassId) : List ClassId :=
  (w.structuralBases c).filter fun b => (w.info b).isInterface

/-- The class that a class extends: the first base that is no interface, or else the class above all
    classes, which itself extends none. -/
def superOf (w : World) (c : ClassId) : Option ClassId :=
  if c = objectId then none
  else some (((w.structuralBases c).find? fun b => !(w.info b).isInterface).getD objectId)

/-- The classes that the body of a class defines. -/
def nestedOf (w : World) (c : ClassId) : List ClassId :=
  let i := w.info c
  i.names.filterMap fun (name, v) =>
    match v with
    | .cls d => if (w.info d).qualname = i.qualname ++ "." ++ name then some d else none
    | _ => none

/-- The modifiers of a class. A subclass of a final class counts as final. -/
def modifiersOf (w : World) (c : ClassId) : List String :=
  let i := w.info c
  visibility none i.name ::
    (if i.isInterface then ["interface", "abstract"]
      else if i.abstractNames.isEmpty then [] else ["abstract"]) ++
    (if i.order.any fun d => (w.info d).isFinal then ["final"] else [])

end World

/-- The component of a name that marks what is defined inside a function. -/
def localsMark : String := "<locals>"

/-- The name of the class around a class, unless it stands alone or in a function. -/
def ClassInfo.declaringName? (i : ClassInfo) : Option TypeName :=
  let path := Dotted.ofString i.qualname
  if path.length ≤ 1 ∨ path.contains localsMark then none
  else some (i.module ++ "." ++ Dotted.text path.dropLast)

end TypeAtlas.Codebase
