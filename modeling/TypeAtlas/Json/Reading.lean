import TypeAtlas.Json.Document
import TypeAtlas.Ordered.Entries

/-!
# Typed reading of JSON documents

A reader takes a node of a document to a value of the wanted type. It walks the document in the
order of the text and stops at the first problem, be it a fault of the text or a value of the wrong
type. The contents of an array or object that is not wanted are not looked at.
-/

namespace TypeAtlas.Json

/-! ## §1 Faults -/

/-- A step from a value to one of its parts. -/
inductive PathStep where
  /-- To a named part of an object. -/
  | key (name : String)
  /-- To a part of an array. -/
  | index (n : Nat)
  /-- To some part of an object that has no names of its own. -/
  | any
  deriving Repr, DecidableEq

/-- The way from the whole value to a part, last step first. -/
abbrev Path := List PathStep

/-- What a reader wants. -/
inductive Wanted where
  | str | int | bool | array | object | strOrNull
  deriving Repr, DecidableEq

/-- What a reader meets. -/
inductive Found where
  | str | int | float | bool | null | array | object
  deriving Repr, DecidableEq

/-- Why a document gives no value of the wanted type. -/
inductive Fault where
  /-- The text is not JSON, or it ends too soon or too late. -/
  | malformed
  /-- A string that is needed holds octets that are no characters. -/
  | notText
  /-- A value is of another type than the wanted one. -/
  | mismatch (wanted : Wanted) (found : Found) (path : Path)
  /-- An object lacks a part that it must have. -/
  | missing (name : String) (path : Path)
  /-- An object has a part that it must not have. -/
  | unknown (name : String) (path : Path)
  /-- A number with a fraction or an exponent is too large. -/
  | outOfRange (path : Path)
  deriving Repr, DecidableEq

/-- The written form of a step. -/
def PathStep.text : PathStep → String
  | .key name => "." ++ name
  | .index n => "[" ++ toString n ++ "]"
  | .any => "[...]"

/-- The words that tell where a problem lies; there are none for the whole value. -/
def pathSuffix : Path → String
  | [] => ""
  | path => " - at `$" ++ String.join (path.reverse.map PathStep.text) ++ "`"

/-- The name of a wanted type. -/
def Wanted.text : Wanted → String
  | .str => "str"
  | .int => "int"
  | .bool => "bool"
  | .array => "array"
  | .object => "object"
  | .strOrNull => "str | null"

/-- The name of a type that is met. -/
def Found.text : Found → String
  | .str => "str"
  | .int => "int"
  | .float => "float"
  | .bool => "bool"
  | .null => "null"
  | .array => "array"
  | .object => "object"

/-- The words for a fault, given those for the malformed text: they tell where the reader of JSON
    stopped and why, and are its own. -/
def Fault.message (malformed : String) : Fault → String
  | .malformed => malformed
  | .notText => "invalid UTF-8"
  | .mismatch wanted found path =>
    "Expected `" ++ wanted.text ++ "`, got `" ++ found.text ++ "`" ++ pathSuffix path
  | .missing name path => "Object missing required field `" ++ name ++ "`" ++ pathSuffix path
  | .unknown name path => "Object contains unknown field `" ++ name ++ "`" ++ pathSuffix path
  | .outOfRange path => "Number out of range" ++ pathSuffix path

/-! ## §2 Numbers beyond the range

A number with a fraction or an exponent has to round to a finite double. The least magnitude that
does not lies half a unit in the last place above the greatest double. -/

/-- The least magnitude that rounds past the greatest double. -/
def rangeLimit : Nat := Nat.pow 2 1024 - Nat.pow 2 970

/-- Whether `mantissa * 10 ^ exponent` is too large. Magnitudes far from the limit are told by
    their number of digits, so that no great power is computed. -/
def isOutOfRange (mantissa exponent : Int) : Bool :=
  let m := mantissa.natAbs
  if m = 0 then false
  else
    let size : Int := (Nat.toDigits 10 m).length + exponent
    if size < 300 then false
    else if 320 < size then true
    else
      match exponent with
      | .ofNat e => rangeLimit ≤ m * Nat.pow 10 e
      | .negSucc e => rangeLimit * Nat.pow 10 (e + 1) ≤ m

/-! ## §3 Readers -/

/-- A reader of values of type `α`: it is told where the node stands, for the words of a fault. -/
abbrev Reader (α : Type) := Path → Node → Except Fault α

/-- The type of a node, where the node can be told to have one. -/
def Node.found (path : Path) : Node → Except Fault Found
  | .null => .ok .null
  | .bool _ => .ok .bool
  | .int _ => .ok .int
  | .decimal m e => if isOutOfRange m e then .error (.outOfRange path) else .ok .float
  | .str _ => .ok .str
  | .arr _ _ => .ok .array
  | .obj _ _ => .ok .object
  | .broken => .error .malformed

/-- The fault of a node that is not of the wanted type. -/
def mismatch {α : Type} (wanted : Wanted) : Reader α := fun path node =>
  match node.found path with
  | .ok found => .error (.mismatch wanted found path)
  | .error fault => .error fault

/-- The text of a string, if it has one. -/
def needText : Option String → Except Fault String
  | some s => .ok s
  | none => .error .notText

/-- Reads a string. -/
def text : Reader String := fun path node =>
  match node with
  | .str s => needText s
  | node => mismatch .str path node

/-- Reads a string or null. -/
def textOrNull : Reader (Option String) := fun path node =>
  match node with
  | .str s => some <$> needText s
  | .null => .ok none
  | node => mismatch .strOrNull path node

/-- Reads a number without fraction and exponent. -/
def integer : Reader Int := fun path node =>
  match node with
  | .int n => .ok n
  | node => mismatch .int path node

/-- Reads a truth value. -/
def truth : Reader Bool := fun path node =>
  match node with
  | .bool b => .ok b
  | node => mismatch .bool path node

/-- Reads the items of an array from position `n` on. -/
def listFrom {α : Type} (item : Reader α) (path : Path) : Nat → List Node → Except Fault (List α)
  | _, [] => .ok []
  | n, node :: nodes => do
    let a ← item (.index n :: path) node
    let rest ← listFrom item path (n + 1) nodes
    return a :: rest

/-- Reads an array whose items are all of one type. -/
def list {α : Type} (item : Reader α) : Reader (List α) := fun path node =>
  match node with
  | .arr nodes closed => do
    let as ← listFrom item path 0 nodes
    if closed then .ok as else .error .malformed
  | node => mismatch .array path node

mutual

/-- Passes over a value that is not wanted. It has to be well formed all the same. -/
def skim : Node → Except Fault Unit
  | .decimal m e => if isOutOfRange m e then .error (.outOfRange []) else .ok ()
  | .arr nodes closed => do
    skimItems nodes
    if closed then .ok () else .error .malformed
  | .obj ms closed => do
    skimMembers ms
    if closed then .ok () else .error .malformed
  | .broken => .error .malformed
  | _ => .ok ()

/-- Passes over the items of an array. -/
def skimItems : List Node → Except Fault Unit
  | [] => .ok ()
  | node :: nodes => do
    skim node
    skimItems nodes

/-- Passes over the members of an object, whatever their keys. -/
def skimMembers : List (Option String × Node) → Except Fault Unit
  | [] => .ok ()
  | (_, node) :: ms => do
    skim node
    skimMembers ms

end

/-- Reads the members of an object one after the other into a partial result. -/
def membersInto {σ : Type} (member : σ → Option String → Path → Node → Except Fault σ)
    (path : Path) : σ → List (Option String × Node) → Except Fault σ
  | s, [] => .ok s
  | s, (k, node) :: ms => do
    let s ← member s k path node
    membersInto member path s ms

/-- Reads an object: each member goes into a partial result, and the result is complete when the
    object closes. -/
def object {σ α : Type} (start : σ) (member : σ → Option String → Path → Node → Except Fault σ)
    (finish : Path → σ → Except Fault α) : Reader α := fun path node =>
  match node with
  | .obj ms closed => do
    let s ← membersInto member path start ms
    if closed then finish path s else .error .malformed
  | node => mismatch .object path node

/-- Reads the value of a named part of an object. -/
def part {α : Type} (name : String) (read : Reader α) : Reader α := fun path node =>
  read (.key name :: path) node

/-- A part that an object must have. -/
def need {α : Type} (name : String) (path : Path) : Option α → Except Fault α
  | some a => .ok a
  | none => .error (.missing name path)

mutual

/-- Reads any value. Of the members of an object that share a key the last one counts. -/
def anyValue : Reader Json := fun path node =>
  match node with
  | .null => .ok .null
  | .bool b => .ok (.bool b)
  | .int n => .ok (.int n)
  | .decimal m e =>
    if isOutOfRange m e then .error (.outOfRange path) else .ok (.decimal m e)
  | .str s => Json.str <$> needText s
  | .arr nodes closed => do
    let vs ← anyItems path 0 nodes
    if closed then .ok (.arr vs) else .error .malformed
  | .obj ms closed => do
    let vs ← anyMembers path [] ms
    if closed then .ok (.obj vs) else .error .malformed
  | .broken => .error .malformed

/-- Reads items of any type. -/
def anyItems (path : Path) : Nat → List Node → Except Fault (List Json)
  | _, [] => .ok []
  | n, node :: nodes => do
    let v ← anyValue (.index n :: path) node
    let vs ← anyItems path (n + 1) nodes
    return v :: vs

/-- Reads members of any type and adds them to those read before. -/
def anyMembers (path : Path) :
    List (String × Json) → List (Option String × Node) → Except Fault (List (String × Json))
  | vs, [] => .ok vs
  | vs, (k, node) :: ms => do
    let k ← needText k
    let v ← anyValue (.any :: path) node
    anyMembers path (Entries.put k v vs) ms

end

/-- Reads an object whose members are of any type. -/
def anyObject : Reader (List (String × Json)) := fun path node =>
  match node with
  | .obj ms closed => do
    let vs ← anyMembers path [] ms
    if closed then .ok vs else .error .malformed
  | node => mismatch .object path node

/-- Reads a whole document. Nothing but white space may follow its value. -/
def Document.read {α : Type} (reader : Reader α) (d : Document) : Except Fault α := do
  let a ← reader [] d.root
  if d.ended then .ok a else .error .malformed

end TypeAtlas.Json
