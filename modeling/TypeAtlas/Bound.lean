/-!
# Depth bounds

How far a walk through the references of types goes on. A walk is unbounded, or it expands the
types up to a given distance from where it began. Outside the library a bound is a whole number,
with minus one for an unbounded walk; no number below that is a bound.
-/

namespace TypeAtlas

/-- How far a walk goes on. -/
inductive Bound where
  /-- Every type is expanded. -/
  | unbounded
  /-- The types up to the given distance are expanded. -/
  | upTo (n : Nat)
  deriving Repr, DecidableEq, Inhabited

namespace Bound

/-- The bound that a whole number stands for. -/
def ofInt? : Int → Option Bound
  | .ofNat n => some (.upTo n)
  | .negSucc 0 => some .unbounded
  | .negSucc (_ + 1) => none

/-- The whole number that stands for a bound. -/
def toInt : Bound → Int
  | .unbounded => -1
  | .upTo n => n

/-- Whether a type found at the given distance is expanded. -/
def admits : Bound → Nat → Bool
  | .unbounded, _ => true
  | .upTo n, depth => depth ≤ n

/-- The bound in words. -/
def text : Bound → String
  | .unbounded => "unbounded"
  | .upTo n => toString n

@[simp] theorem ofInt?_toInt (b : Bound) : ofInt? b.toInt = some b := by
  cases b <;> rfl

theorem toInt_of_ofInt? {d : Int} {b : Bound} (h : ofInt? d = some b) : b.toInt = d := by
  match d with
  | .ofNat n =>
    cases h
    rfl
  | .negSucc 0 =>
    cases h
    rfl
  | .negSucc (n + 1) => cases h

/-- A whole number is a bound exactly when it is minus one or more. -/
theorem ofInt?_eq_none_iff {d : Int} : ofInt? d = none ↔ d < -1 := by
  cases d with
  | ofNat n => simp only [ofInt?, reduceCtorEq, false_iff, Int.ofNat_eq_natCast]; omega
  | negSucc n =>
    cases n with
    | zero => simp [ofInt?]
    | succ n => simp only [ofInt?, true_iff]; omega

end Bound

end TypeAtlas
