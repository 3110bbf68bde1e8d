import TypeAtlas.Proofs.Closure.Loops
import TypeAtlas.Proofs.Closure.Reach

/-!
# Searches in any order

A search stacks the references of a type in some order, and the order decides in which order types
are seen. It decides nothing else: every search comes to its end after as many looks as the record
has references at most, the references of a type are stacked once, those of the start once more, and
what has been seen at the end is the same.

Main statements: `Search.Runs.length_le`, `Search.Runs.stackings_le` and `reachable_in_any_order`.
-/

namespace TypeAtlas

namespace Search

/-! ## §1 Runs -/

/-- A search takes types from its stack, one after the other, and may stop anywhere. -/
abbrev Runs (adjacency : Adjacency) : Search → List Look → Search → Prop :=
  Turns (Takes adjacency)

/-- How often the references of a type are stacked in a search: once when the search begins, if the
    type is its start, and once for every look at the type that finds it new. -/
def stackings (start : TypeName) (looks : List Look) (t : TypeName) : Nat :=
  (if t = start then 1 else 0) + looks.count ⟨t, true⟩

/-- What some search from `start` finds when nothing is left on its stack. -/
def Finds (adjacency : Adjacency) (start : TypeName) (ts : NameSet) : Prop :=
  ∃ s looks s', Begins adjacency start s ∧ Runs adjacency s looks s' ∧ s'.stack = [] ∧
    ts = s'.seen.filter (· != start)

variable {adjacency : Adjacency} {start : TypeName} {s s' : Search} {looks : List Look}

/-- A search goes on as long as there is something on its stack. -/
theorem exists_takes (hs : s.stack ≠ []) : ∃ look s', Takes adjacency s look s' := by
  obtain ⟨seen, stack⟩ := s
  cases stack with
  | nil => exact absurd rfl hs
  | cons t stack =>
    by_cases ht : t ∈ seen
    · exact ⟨_, _, .again ht⟩
    · exact ⟨_, _, .opened ht (.refl _)⟩

/-- Taking steps is one way to run. -/
theorem exists_runs (adjacency : Adjacency) (fuel : Nat) (s : Search) :
    ∃ looks, Runs adjacency s looks (run adjacency.next fuel s) := by
  induction fuel generalizing s with
  | zero => exact ⟨[], .stop s⟩
  | succ fuel ih =>
    unfold run
    cases hs : s.step adjacency.next with
    | none => exact ⟨[], .stop s⟩
    | some s' =>
      obtain ⟨look, htakes⟩ := exists_takes_of_step hs
      obtain ⟨looks, hruns⟩ := ih s'
      exact ⟨look :: looks, .go htakes hruns⟩

namespace Runs

theorem sound (h : Runs adjacency s looks s') (hs : Sound adjacency start s) :
    Sound adjacency start s' :=
  h.keeps (fun htakes => htakes.sound) hs

/-! ## §2 How long a search takes -/

/-- A search takes as many types from its stack as the record has references at most, those of the
    start counted once more. -/
theorem length_le (h : Runs adjacency s looks s') (hs : Begins adjacency start s) :
    looks.length ≤ searchFuel adjacency start := by
  have hle := h.length_add_weight_le Takes.weight_lt
  rw [hs.weight_eq] at hle
  omega

/-- A type is new once at most, and no more when it has been seen. -/
theorem count_opened_le (h : Runs adjacency s looks s') (t : TypeName) :
    looks.count ⟨t, true⟩ ≤ if t ∈ s.seen then 0 else 1 := by
  induction h with
  | stop s => simp
  | go htakes _ ih =>
    cases htakes with
    | again hu => simpa using ih
    | @opened seen u stack listed hu _ =>
      by_cases htu : t = u
      · -- this is the look that finds it new
        subst htu
        simpa [hu] using ih
      · have hne : (⟨u, true⟩ : Look) ≠ ⟨t, true⟩ := fun heq => htu (congrArg Look.type heq).symm
        simpa [List.count_cons_of_ne hne, htu] using ih

/-- The references of a type are stacked once at most, and those of the start twice. -/
theorem stackings_le (h : Runs adjacency s looks s') (start t : TypeName) :
    stackings start looks t ≤ if t = start then 2 else 1 := by
  -- before the first look only the references of the start have been stacked
  have hle : looks.count ⟨t, true⟩ ≤ 1 := by
    have hopened := h.count_opened_le t
    split at hopened <;> omega
  unfold stackings
  split <;> omega

end Runs

/-! ## §3 What a search finds -/

/-- All searches that come to their end find the same, and one of them is the search that goes
    through references in the order of their names. -/
theorem finds_iff {ts : NameSet} : Finds adjacency start ts ↔ ts = reachable adjacency start := by
  apply Iff.intro
  · intro h
    obtain ⟨s, looks, s', hbegins, hruns, hend, rfl⟩ := h
    have hsound := hruns.sound hbegins.sound
    apply OrdSet.ext
    intro t
    rw [OrdSet.mem_filter, bne_iff_ne, hsound.mem_seen_iff hend, mem_reachable_iff]
    exact and_comm
  · intro h
    -- the search in the order of names has fuel enough to empty its stack
    have hbegins := begins_next adjacency start
    obtain ⟨looks, hruns⟩ := exists_runs adjacency (searchFuel adjacency start + 1)
      ⟨∅, adjacency.next start⟩
    have hend := run_stack (Nat.lt_succ_of_le (Nat.le_of_eq hbegins.weight_eq))
    exact ⟨_, looks, _, hbegins, hruns, hend, h⟩

end Search

/-- Over any record of references, the types reachable from a start, which may be recorded or not,
    are the other types that a walk of one reference or more leads to, all of whose types but the
    last are recorded. A search finds just these, in whatever order it stacks the references of each
    type: it cannot go on for ever, and it stops only when its stack is empty. -/
theorem reachable_in_any_order (adjacency : Adjacency) (start : TypeName) :
    (∀ t, t ∈ reachable adjacency start ↔
      t ≠ start ∧ ∃ n, 1 ≤ n ∧ adjacency.refs.ReachesIn start n t) ∧
    (∀ ts, Search.Finds adjacency start ts ↔ ts = reachable adjacency start) ∧
    ∀ s looks s', Search.Begins adjacency start s → Search.Runs adjacency s looks s' →
      looks.length ≤ searchFuel adjacency start ∧
        (s'.stack ≠ [] → ∃ look s'', Search.Takes adjacency s' look s'') := by
  refine ⟨?_, fun ts => Search.finds_iff, ?_⟩
  · intro t
    rw [mem_reachable_iff, Refs.exists_one_le_and_iff]
  · intro s looks s' hbegins hruns
    exact ⟨hruns.length_le hbegins, Search.exists_takes⟩

/-- Two types that reference each other and more: `A` itself, and `B` a type that is not
    recorded. -/
def knot : Adjacency := [("A", OrdSet.ofList ["A", "B"]), ("B", OrdSet.ofList ["A", "C"])]

/-- However the references are stacked, a search from `A` finds `B` and `C`, and one from `C`, which
    is not recorded, finds nothing. -/
theorem reachable_in_any_order_knot :
    Search.Begins knot "A" ⟨∅, ["B", "A"]⟩ ∧
      (∀ ts, Search.Finds knot "A" ts ↔ ts = OrdSet.ofList ["B", "C"]) ∧
      (∀ ts, Search.Finds knot "C" ts ↔ ts = ∅) ∧
      ∀ looks s', Search.Runs knot ⟨∅, ["B", "A"]⟩ looks s' → looks.length ≤ 6 := by
  have hA : reachable knot "A" = OrdSet.ofList ["B", "C"] := by decide
  have hC : reachable knot "C" = ∅ := by decide
  have hbegins : Search.Begins knot "A" ⟨∅, ["B", "A"]⟩ := ⟨rfl, by decide⟩
  obtain ⟨-, hfinds, hends⟩ := reachable_in_any_order knot "A"
  refine ⟨hbegins, ?_, ?_, ?_⟩
  · simpa only [hA] using hfinds
  · simpa only [hC] using (reachable_in_any_order knot "C").2.1
  · intro looks s' hruns
    exact (hends _ looks s' hbegins hruns).1

end TypeAtlas
