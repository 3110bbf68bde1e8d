import TypeAtlas.Codebase.Source
import TypeAtlas.Name

/-!
# Evaluated annotations

What an annotation stands for: a class, a union, a wrapper around a type, a generic type with
arguments, or an object that is no type.

Main definitions: `Term.unionOf` builds unions, which are flat and name no member twice;
`Term.mentions` says which types a term names.
-/

namespace TypeAtlas.Codebase

/-- A class, by its place in the list of all classes. -/
abbrev ClassId := Nat

/-! ## §1 Terms -/

/-- What an annotation stands for. -/
inductive Term where
  /-- A class. -/
  | cls (c : ClassId)
  /-- The absent value. -/
  | nothing
  /-- The class of the absent value. -/
  | nothingType
  /-- Any type at all. -/
  | any
  /-- An object that is no type. -/
  | object
  /-- A function, which is no type. -/
  | function (module qualname : String)
  /-- A type variable. -/
  | typeVar
  /-- A new type over an old one. -/
  | newType
  /-- A text, which is no type. -/
  | text (a : Hint)
  /-- A reference to a type by its text, which is no type. -/
  | forward (a : Hint)
  /-- A union of two members or more. One that is spelled with bars is written so. -/
  | union (barred : Bool) (members : List Term)
  /-- A type with a number of tags. -/
  | annotated (t : Term) (tags : Nat)
  /-- A class variable of some type. -/
  | bareClassVar
  /-- A class variable of a type. -/
  | classVar (t : Term)
  /-- A constant of some type. -/
  | bareFinal
  /-- A constant of a type. -/
  | final (t : Term)
  /-- A generic class with arguments. The arguments of a builtin one are taken as they are. -/
  | generic (builtin : Bool) (head : ClassId) (args : List Term)
  /-- A generic alias, with or without arguments. -/
  | alias (name : String) (args : List Term)
  /-- Something else that has an origin. -/
  | special (s : Special)
  deriving Inhabited

namespace Term

/-! ## §2 Sameness -/

mutual

/-- Whether two terms stand for the same. The order of the members of a union and the way it is
    spelled do not count. -/
def same : Term → Term → Bool
  | .cls c, .cls d => c == d
  | .nothing, .nothing => true
  | .nothingType, .nothingType => true
  | .any, .any => true
  | .object, .object => true
  | .function m q, .function m' q' => m == m' && q == q'
  | .typeVar, .typeVar => true
  | .newType, .newType => true
  | .text a, .text b => a.text == b.text
  | .forward a, .forward b => a.text == b.text
  | .union _ ms, .union _ ns => allIn ms ns && ns.all fun n => anySame ms n
  | .annotated t k, .annotated u l => same t u && k == l
  | .bareClassVar, .bareClassVar => true
  | .classVar t, .classVar u => same t u
  | .bareFinal, .bareFinal => true
  | .final t, .final u => same t u
  | .generic _ h ts, .generic _ k us => h == k && sameAll ts us
  | .alias n ts, .alias m us => n == m && sameAll ts us
  | .special s, .special s' => s == s'
  | _, _ => false

/-- Whether the terms of two lists are the same one by one. -/
def sameAll : List Term → List Term → Bool
  | [], [] => true
  | t :: ts, u :: us => same t u && sameAll ts us
  | _, _ => false

/-- Whether each term of the first list is in the second. -/
def allIn : List Term → List Term → Bool
  | [], _ => true
  | t :: ts, us => us.any (fun u => same t u) && allIn ts us

/-- Whether a term of the list is the same as the given one. -/
def anySame : List Term → Term → Bool
  | [], _ => false
  | t :: ts, u => same t u || anySame ts u

end

/-- Keep the first of terms that are the same. -/
def distinct : List Term → List Term
  | [] => []
  | t :: ts => t :: (distinct ts).filter fun u => !same t u

/-! ## §3 Building -/

/-- The members of a union; any other term is its own only member. -/
def members : Term → List Term
  | .union _ ms => ms
  | t => [t]

/-- The union of terms: unions among them are taken apart, repeated members are dropped, and a
    single member is the union. -/
def unionOf (barred : Bool) (ts : List Term) : Option Term :=
  match distinct (ts.flatMap members) with
  | [] => none
  | [t] => some t
  | ms => some (.union barred ms)

/-- A term in the place of a type inside a form: the absent value stands for its class, and a text
    for a reference. -/
def converted : Term → Term
  | .nothing => .nothingType
  | .text a => .forward a
  | t => t

/-- Whether a form takes a term as an argument. It does not take what marks a class variable or a
    constant, nor that with tags if it marks one of some type, nor the base of generic classes. -/
def isArgument : Term → Bool
  | .bareClassVar => false
  | .classVar _ => false
  | .bareFinal => false
  | .final _ => false
  | .annotated .bareClassVar _ => false
  | .annotated .bareFinal _ => false
  | .special .genericBase => false
  | _ => true

/-- A term as an argument of a form. -/
def argument? (t : Term) : Option Term := if t.isArgument then some t.converted else none

/-- The arguments of a form. -/
def arguments? (ts : List Term) : Option (List Term) := ts.mapM argument?

/-- A term with one tag more. The base of generic classes takes none. -/
def tagged? : Term → Option Term
  | .annotated t k => some (.annotated t (k + 1))
  | .special .genericBase => none
  | t => some (.annotated t.converted 1)

/-- Whether a term may stand beside a bar by itself. -/
def isBarable : Term → Bool
  | .cls _ => true
  | .nothing => true
  | .nothingType => true
  | .any => true
  | .generic builtin _ _ => builtin
  | .union barred _ => barred
  | .special s => s == .genericBase
  | _ => false

/-- Whether a term turns a bar beside it into a union form. -/
def isForm : Term → Bool
  | .typeVar => true
  | .newType => true
  | .forward _ => true
  | .union barred _ => !barred
  | .annotated _ _ => true
  | .bareClassVar => true
  | .classVar _ => true
  | .bareFinal => true
  | .final _ => true
  | .generic builtin _ _ => !builtin
  | .alias _ _ => true
  | _ => false

/-- Two terms with a bar between them. -/
def barred? : Term → Term → Option Term
  | .nothing, .nothing => none
  | t, u =>
    if t.isBarable && u.isBarable then unionOf true [t.converted, u.converted]
    else if t.isForm || u.isForm then do unionOf false (← arguments? [t, u])
    else none

/-- Terms with bars between them. -/
def bars? : List Term → Option Term
  | [] => none
  | t :: ts => ts.foldlM barred? t

/-! ## §4 Texts -/

/-- The last component of a name with dots. -/
def lastName (s : String) : String := ((Dotted.ofString s).getLast?).getD s

/-- The text of a union whose members have the given texts: a union of two of which one is the
    absent value is an optional type. -/
def unionText : List Term → List String → String
  | [.nothingType, _], [_, u] => "typing.Optional[" ++ u ++ "]"
  | [_, .nothingType], [t, _] => "typing.Optional[" ++ t ++ "]"
  | _, texts => "typing.Union[" ++ ", ".intercalate texts ++ "]"

/-- The text of a member of a union that is written with bars. -/
def barText : Term → String → String
  | .nothingType, _ => "None"
  | _, s => s

mutual

/-- The text of a term that stands inside a form, or else in the brackets of a builtin class. -/
def print (nameOf : ClassId → String) (inForm : Bool) : Term → String
  | .cls c => nameOf c
  | .nothing => "None"
  | .nothingType => "NoneType"
  | .any => "typing.Any"
  | .object => "object"
  | .function module qualname =>
    if inForm then lastName qualname else module ++ "." ++ qualname
  | .typeVar => "~T"
  | .newType => "N"
  | .text a => Text.quoted a.text
  | .forward a => "ForwardRef(" ++ Text.quoted a.text ++ ")"
  | .union true ms =>
    " | ".intercalate (List.zipWith barText ms (printAll nameOf false ms))
  | .union false ms => unionText ms (printAll nameOf true ms)
  | .annotated t tags =>
    "typing.Annotated[" ++ ", ".intercalate (print nameOf true t :: List.replicate tags Hint.tag)
      ++ "]"
  | .bareClassVar => "typing.ClassVar"
  | .classVar t => "typing.ClassVar[" ++ print nameOf true t ++ "]"
  | .bareFinal => "typing.Final"
  | .final t => "typing.Final[" ++ print nameOf true t ++ "]"
  | .generic builtin head args =>
    nameOf head ++ "[" ++ ", ".intercalate (printAll nameOf (!builtin) args) ++ "]"
  | .alias name [] => "typing." ++ name
  | .alias name args =>
    "typing." ++ name ++ "[" ++ ", ".intercalate (printAll nameOf true args) ++ "]"
  | .special s => s.text

/-- The texts of terms. -/
def printAll (nameOf : ClassId → String) (inForm : Bool) : List Term → List String
  | [] => []
  | t :: ts => print nameOf inForm t :: printAll nameOf inForm ts

end

end Term

/-! ## §5 Mentions -/

/-- A type that a term names. -/
structure Mention where
  /-- The name of the type. -/
  name : TypeName
  /-- The class, if the type is one. -/
  cls : Option ClassId := none
  deriving Repr, DecidableEq

/-- The name of the type of the absent value. -/
def nothingTypeName : TypeName := "builtins.NoneType"

namespace Mention

/-- Keep the first mention of each name. -/
def distinct : List Mention → List Mention
  | [] => []
  | m :: ms => m :: (distinct ms).filter fun n => n.name != m.name

end Mention

/-- How classes are named. -/
structure Naming where
  /-- The full name of a class. -/
  full : ClassId → TypeName
  /-- The name of a class inside the text of a type. -/
  short : ClassId → String

namespace Term

mutual

/-- The types that a term names. A wrapper names what it wraps, a union what its members name, and
    a generic type with its arguments is a type of its own, as is whatever else has an origin. The
    absent value is a type unless it is a member of a union. -/
def mentions (naming : Naming) : Term → List Mention
  | .nothing => [⟨nothingTypeName, none⟩]
  | .nothingType => [⟨nothingTypeName, none⟩]
  | .cls c => [⟨naming.full c, some c⟩]
  | .annotated t _ => mentions naming t
  | .classVar t => mentions naming t
  | .final t => mentions naming t
  | .union _ ms => Mention.distinct (memberMentions naming ms)
  | .generic builtin head args => [⟨print naming.short false (.generic builtin head args), none⟩]
  | .alias name args => [⟨print naming.short false (.alias name args), none⟩]
  | .special s => [⟨s.alone, none⟩]
  | _ => []

/-- The types that the members of a union name. -/
def memberMentions (naming : Naming) : List Term → List Mention
  | [] => []
  | .nothingType :: ms => memberMentions naming ms
  | t :: ms => mentions naming t ++ memberMentions naming ms

end

end Term

end TypeAtlas.Codebase
