import Mathlib.Algebra.Order.Field.Power
import Mathlib.Data.Rat.Cast.Order
import Mathlib.Tactic.NormNum
import Mathlib.Tactic.Positivity
import TypeAtlas.Json.Reading

/-!
# Values that may be passed over

A value that is not wanted is passed over exactly if the text has no fault in it and each of its
numbers with a fraction or an exponent rounds to a finite double.

Main statements: `Json.isOutOfRange_eq_false_iff` and `Json.skim_eq_ok_iff`.
-/

namespace TypeAtlas.Json

/-! ## §1 Numbers -/

/-- The magnitude of `mantissa * 10 ^ exponent` rounds to a finite double. -/
def InRange (mantissa exponent : Int) : Prop :=
  (mantissa.natAbs : ℚ) * 10 ^ exponent < rangeLimit

/-- The number of digits tells the magnitude of a number. -/
theorem pow_le_lt_pow_length_toDigits {m : Nat} (hm : m ≠ 0) :
    10 ^ ((Nat.toDigits 10 m).length - 1) ≤ m ∧ m < 10 ^ (Nat.toDigits 10 m).length := by
  have hlength : 0 < (Nat.toDigits 10 m).length := Nat.length_toDigits_pos
  refine ⟨?_, (Nat.length_toDigits_le_iff (by decide) hlength).1 (Nat.le_refl _)⟩
  by_contra hlt
  rcases Nat.eq_zero_or_pos ((Nat.toDigits 10 m).length - 1) with hzero | hpos
  · rw [hzero] at hlt
    omega
  · have := (Nat.length_toDigits_le_iff (by decide) hpos).2 (Nat.lt_of_not_le hlt)
    omega

/-- The same for numbers with an exponent. -/
theorem zpow_size {m : Nat} (hm : m ≠ 0) (e : Int) :
    (10 : ℚ) ^ ((Nat.toDigits 10 m).length + e - 1) ≤ m * 10 ^ e ∧
      (m : ℚ) * 10 ^ e < 10 ^ ((Nat.toDigits 10 m).length + e) := by
  obtain ⟨hle, hlt⟩ := pow_le_lt_pow_length_toDigits hm
  have hlength : 0 < (Nat.toDigits 10 m).length := Nat.length_toDigits_pos
  generalize (Nat.toDigits 10 m).length = l at *
  have hpos : (0 : ℚ) < 10 ^ e := by positivity
  constructor
  · have hexp : (l : Int) + e - 1 = ((l - 1 : Nat) : Int) + e := by omega
    rw [hexp, zpow_add₀ (by norm_num), zpow_natCast]
    exact mul_le_mul_of_nonneg_right (by exact_mod_cast hle) hpos.le
  · rw [zpow_add₀ (by norm_num), zpow_natCast]
    exact mul_lt_mul_of_pos_right (by exact_mod_cast hlt) hpos

/-- Magnitudes that are told by their number of digits are far from the limit. -/
theorem rangeLimit_bounds :
    (10 : ℚ) ^ (299 : Int) ≤ rangeLimit ∧ (rangeLimit : ℚ) ≤ 10 ^ (320 : Int) := by
  have h : 10 ^ 299 ≤ rangeLimit ∧ rangeLimit ≤ 10 ^ 320 := by decide +kernel
  constructor
  · exact_mod_cast h.1
  · exact_mod_cast h.2

/-- The number of digits and the exact comparison agree. -/
theorem isOutOfRange_eq_false_iff {m e : Int} : isOutOfRange m e = false ↔ InRange m e := by
  unfold isOutOfRange InRange
  dsimp only
  -- of the limit no more is used than that it is far from the magnitudes told by their digits
  have hlimit := rangeLimit_bounds
  generalize rangeLimit = limit at *
  by_cases hm : m.natAbs = 0
  · have hpos : (0 : ℚ) < limit := lt_of_lt_of_le (by positivity) hlimit.1
    simp [hm, hpos]
  · rw [if_neg hm]
    obtain ⟨hle, hlt⟩ := zpow_size hm e
    generalize hsize : ((Nat.toDigits 10 m.natAbs).length : Int) + e = size at *
    by_cases hsmall : size < 300
    · rw [if_pos hsmall]
      have hpow : (10 : ℚ) ^ size ≤ 10 ^ (299 : Int) :=
        zpow_le_zpow_right₀ (by norm_num) (by omega)
      simpa using hlt.trans_le (hpow.trans hlimit.1)
    · rw [if_neg hsmall]
      by_cases hlarge : 320 < size
      · rw [if_pos hlarge]
        have hpow : (10 : ℚ) ^ (320 : Int) ≤ 10 ^ (size - 1) :=
          zpow_le_zpow_right₀ (by norm_num) (by omega)
        simpa using hlimit.2.trans (hpow.trans hle)
      · rw [if_neg hlarge]
        cases e with
        | ofNat e =>
          have hnat : (limit : ℚ) ≤ m.natAbs * 10 ^ Int.ofNat e ↔
              limit ≤ m.natAbs * 10 ^ e := by
            rw [Int.ofNat_eq_natCast, zpow_natCast]
            exact_mod_cast Iff.rfl
          rw [← not_le, hnat]
          simp
        | negSucc e =>
          have hpos : (0 : ℚ) < 10 ^ (e + 1) := by positivity
          have hnat : (limit : ℚ) ≤ m.natAbs * 10 ^ Int.negSucc e ↔
              limit * 10 ^ (e + 1) ≤ m.natAbs := by
            rw [zpow_negSucc, ← div_eq_mul_inv, le_div_iff₀ hpos]
            exact_mod_cast Iff.rfl
          rw [← not_le, hnat]
          simp
/-! ## §2 Values -/

/-- The value has no fault in it, and its numbers are in range. -/
inductive Node.WellFormed : Node → Prop where
  | null : WellFormed .null
  | bool (b : Bool) : WellFormed (.bool b)
  | int (n : Int) : WellFormed (.int n)
  | decimal {mantissa exponent : Int} (h : InRange mantissa exponent) :
      WellFormed (.decimal mantissa exponent)
  | str (text : Option String) : WellFormed (.str text)
  | arr {ns : List Node} (h : ∀ n ∈ ns, WellFormed n) : WellFormed (.arr ns true)
  | obj {ms : List (Option String × Node)} (h : ∀ m ∈ ms, WellFormed m.2) :
      WellFormed (.obj ms true)

theorem wellFormed_arr_iff {ns : List Node} {closed : Bool} :
    (Node.arr ns closed).WellFormed ↔ (∀ n ∈ ns, n.WellFormed) ∧ closed = true := by
  constructor
  · rintro ⟨⟩
    next h => exact ⟨h, rfl⟩
  · rintro ⟨h, rfl⟩
    exact .arr h

theorem wellFormed_obj_iff {ms : List (Option String × Node)} {closed : Bool} :
    (Node.obj ms closed).WellFormed ↔ (∀ m ∈ ms, m.2.WellFormed) ∧ closed = true := by
  constructor
  · rintro ⟨⟩
    next h => exact ⟨h, rfl⟩
  · rintro ⟨h, rfl⟩
    exact .obj h

/-- Two steps give a result exactly if each of them does. -/
theorem bind_eq_ok_iff {α β : Type} {x : Except Fault α} {f : α → Except Fault β} {b : β} :
    x >>= f = .ok b ↔ ∃ a, x = .ok a ∧ f a = .ok b := by
  cases x with
  | error fault => simp [bind, Except.bind]
  | ok a => simp [bind, Except.bind]

theorem pure_eq_ok_iff {α : Type} {a b : α} : (pure a : Except Fault α) = .ok b ↔ b = a := by
  rw [← Except.ok.injEq b a, eq_comm]
  rfl

mutual

/-- The values that are passed over are the well formed ones. -/
theorem skim_eq_ok_iff : ∀ {n : Node}, skim n = .ok () ↔ n.WellFormed
  | .null => iff_of_true rfl .null
  | .bool b => iff_of_true rfl (.bool b)
  | .int i => iff_of_true rfl (.int i)
  | .decimal m e => by
    have hrange := isOutOfRange_eq_false_iff (m := m) (e := e)
    rw [skim]
    constructor
    · intro h
      refine .decimal (hrange.1 ?_)
      by_contra hout
      rw [if_pos (Bool.eq_true_of_not_eq_false hout)] at h
      cases h
    · rintro ⟨⟩
      next hin => rw [hrange.2 hin, if_neg Bool.false_ne_true]
  | .str s => iff_of_true rfl (.str s)
  | .arr ns closed => by
    simp [skim, bind_eq_ok_iff, skimItems_eq_ok_iff, wellFormed_arr_iff]
  | .obj ms closed => by
    simp [skim, bind_eq_ok_iff, skimMembers_eq_ok_iff, wellFormed_obj_iff]
  | .broken => iff_of_false (fun h => by cases h) (fun h => by cases h)

theorem skimItems_eq_ok_iff : ∀ {ns : List Node}, skimItems ns = .ok () ↔ ∀ n ∈ ns, n.WellFormed
  | [] => iff_of_true rfl (fun _ h => absurd h List.not_mem_nil)
  | n :: ns => by
    simp [skimItems, bind_eq_ok_iff, skim_eq_ok_iff, skimItems_eq_ok_iff]

theorem skimMembers_eq_ok_iff : ∀ {ms : List (Option String × Node)},
    skimMembers ms = .ok () ↔ ∀ m ∈ ms, m.2.WellFormed
  | [] => iff_of_true rfl (fun _ h => absurd h List.not_mem_nil)
  | (k, n) :: ms => by
    simp [skimMembers, bind_eq_ok_iff, skim_eq_ok_iff, skimMembers_eq_ok_iff]

end

end TypeAtlas.Json
