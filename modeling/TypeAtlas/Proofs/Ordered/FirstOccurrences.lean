import Mathlib.Data.List.Nodup

/-!
# First occurrences

Names are kept where they first occur. In a list without repetitions that is where they stand, a
choice among the names can be made before or after, and what is kept of two lists one after the
other depends on what is kept of each.

Main statements: `eraseDups_filter` and `eraseDups_append_congr`.
-/

namespace TypeAtlas

variable {α : Type} [BEq α] [LawfulBEq α]

/-- First occurrences can be taken before or after a choice among the elements. -/
theorem eraseDups_filter (p : α → Bool) :
    ∀ l : List α, (l.filter p).eraseDups = l.eraseDups.filter p
  | [] => rfl
  | a :: l => by
    have hlt : (l.filter fun b => !b == a).length < l.length + 1 :=
      Nat.lt_succ_of_le (List.length_filter_le _ _)
    have ih := eraseDups_filter p (l.filter fun b => !b == a)
    rw [List.eraseDups_cons]
    by_cases ha : p a = true
    · rw [List.filter_cons_of_pos ha, List.filter_cons_of_pos ha, List.eraseDups_cons, ← ih,
        List.filter_filter, List.filter_filter]
      simp only [Bool.and_comm]
    · -- `a` is not chosen, so it makes no difference to leave out what is equal to it
      rw [List.filter_cons_of_neg ha, List.filter_cons_of_neg ha, ← ih, List.filter_filter]
      congr 1
      apply List.filter_congr
      intro b _
      by_cases hba : b = a <;> simp_all
termination_by l => l.length

theorem nodup_eraseDups : ∀ l : List α, l.eraseDups.Nodup
  | [] => List.nodup_nil
  | a :: l => by
    have hlt : (l.filter fun b => !b == a).length < l.length + 1 :=
      Nat.lt_succ_of_le (List.length_filter_le _ _)
    rw [List.eraseDups_cons, List.nodup_cons]
    exact ⟨by simp, nodup_eraseDups _⟩
termination_by l => l.length

/-- In a list without repetitions all occurrences are first ones. -/
theorem eraseDups_of_nodup {l : List α} (hl : l.Nodup) : l.eraseDups = l := by
  induction l with
  | nil => rfl
  | cons a l ih =>
    obtain ⟨ha, hl⟩ := List.nodup_cons.1 hl
    -- nothing in `l` is equal to `a`, so nothing is left out
    rw [List.eraseDups_cons, eraseDups_filter, ih hl]
    congr 1
    apply List.filter_eq_self.2
    intro b hb
    have hne : b ≠ a := fun heq => ha (heq ▸ hb)
    simpa using hne

/-- The first occurrences in two lists together are determined by those in each. -/
theorem eraseDups_append_congr {l l' r r' : List α} (hl : l.eraseDups = l'.eraseDups)
    (hr : r.eraseDups = r'.eraseDups) : (l ++ r).eraseDups = (l' ++ r').eraseDups := by
  have hmem : ∀ a, a ∈ l ↔ a ∈ l' := by
    intro a
    rw [← List.mem_eraseDups, hl, List.mem_eraseDups]
  rw [List.eraseDups_append, List.eraseDups_append, List.removeAll, List.removeAll,
    eraseDups_filter, eraseDups_filter, hl, hr]
  congr 1
  apply List.filter_congr
  intro a _
  simp [hmem]

end TypeAtlas
