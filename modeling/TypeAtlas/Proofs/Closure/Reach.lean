import TypeAtlas.Closure.Reachable

/-!
# Reach

Reaching a type from another one in a number of references, and the proof that the search with a
stack finds exactly what can be reached over recorded references. What a search keeps does not
depend on the order in which it stacks the references of a type.

Main statement: `mem_reachable_iff`.
-/

namespace TypeAtlas

/-! ## §1 Reaching a type in a number of references -/

/-- What is known of the references of types: nothing for a type that cannot be described, or that
    has not been expanded. -/
abbrev Refs := TypeName → Option NameSet

namespace Refs

/-- The references of `u` are known, and `t` is among them. -/
def Leads (refs : Refs) (u t : TypeName) : Prop := ∃ rs, refs u = some rs ∧ t ∈ rs

/-- A walk of `n` references leads from `start` to a type. The references of every type on it but
    the last are known. -/
inductive ReachesIn (refs : Refs) (start : TypeName) : Nat → TypeName → Prop where
  /-- The walk that stays where it begins. -/
  | refl : ReachesIn refs start 0 start
  /-- One more reference at the end of a walk. -/
  | tail {n : Nat} {u t : TypeName} :
      ReachesIn refs start n u → refs.Leads u t → ReachesIn refs start (n + 1) t

/-- A walk of at least one reference has a last one. -/
theorem ReachesIn.exists_last {refs : Refs} {start t : TypeName} {n : Nat}
    (h : refs.ReachesIn start (n + 1) t) : ∃ u, refs.ReachesIn start n u ∧ refs.Leads u t := by
  cases h with
  | tail hu hut => exact ⟨_, hu, hut⟩

/-- More references admit more walks. -/
theorem ReachesIn.of_leads {refs refs' : Refs} {start t : TypeName} {n : Nat}
    (hleads : ∀ u t, refs.Leads u t → refs'.Leads u t)
    (h : refs.ReachesIn start n t) : refs'.ReachesIn start n t := by
  induction h with
  | refl => exact .refl
  | tail _ hlead ih => exact ih.tail (hleads _ _ hlead)

/-- More types with known references admit more walks. -/
theorem ReachesIn.mono {refs refs' : Refs} {start t : TypeName} {n : Nat}
    (hle : ∀ u rs, refs u = some rs → refs' u = some rs)
    (h : refs.ReachesIn start n t) : refs'.ReachesIn start n t := by
  apply h.of_leads
  intro u t hlead
  obtain ⟨rs, hrs, ht⟩ := hlead
  exact ⟨rs, hle u rs hrs, ht⟩

/-- A walk of at least one reference sets out over the references of its start. -/
theorem ReachesIn.exists_refs_start {refs : Refs} {start t : TypeName} {n : Nat}
    (h : refs.ReachesIn start (n + 1) t) : ∃ rs, refs start = some rs := by
  induction n generalizing t with
  | zero =>
    obtain ⟨u, hu, rs, hrs, -⟩ := h.exists_last
    cases hu
    exact ⟨rs, hrs⟩
  | succ n ih =>
    obtain ⟨u, hu, -⟩ := h.exists_last
    exact ih hu

/-- One walk after another. -/
theorem ReachesIn.append {refs : Refs} {start u t : TypeName} {m n : Nat}
    (hm : refs.ReachesIn start m u) (hn : refs.ReachesIn u n t) :
    refs.ReachesIn start (m + n) t := by
  induction hn with
  | refl => exact hm
  | tail _ hlead ih => exact ih.tail hlead

/-- A walk to another type has at least one reference. -/
theorem exists_reachesIn_iff {refs : Refs} {start t : TypeName} (hne : t ≠ start) :
    (∃ n, refs.ReachesIn start n t) ↔ ∃ n, refs.ReachesIn start (n + 1) t := by
  apply Iff.intro
  · intro h
    obtain ⟨n, hn⟩ := h
    cases hn with
    | refl => exact absurd rfl hne
    | tail hu hut => exact ⟨_, hu.tail hut⟩
  · intro h
    obtain ⟨n, hn⟩ := h
    exact ⟨n + 1, hn⟩

/-- Walks of at least one reference, by the number of references before the last one. -/
theorem exists_one_le_and_iff {P : Nat → Prop} : (∃ n, 1 ≤ n ∧ P n) ↔ ∃ n, P (n + 1) := by
  apply Iff.intro
  · intro h
    obtain ⟨n, hpos, hn⟩ := h
    obtain ⟨m, rfl⟩ : ∃ m, n = m + 1 := ⟨n - 1, by omega⟩
    exact ⟨m, hn⟩
  · intro h
    obtain ⟨n, hn⟩ := h
    exact ⟨n + 1, Nat.le_add_left 1 n, hn⟩

/-- The length of the shortest walks to a type. -/
def IsDistance (refs : Refs) (start : TypeName) (k : Nat) (t : TypeName) : Prop :=
  refs.ReachesIn start k t ∧ ∀ n, refs.ReachesIn start n t → k ≤ n

end Refs

namespace Adjacency

/-- The recorded references. -/
def refs (adjacency : Adjacency) : Refs := fun t =>
  (adjacency.find? fun e => e.1 == t).map Prod.snd

/-- The references that a search follows are the recorded ones. -/
theorem mem_next_iff {adjacency : Adjacency} {t u : TypeName} :
    u ∈ adjacency.next t ↔ adjacency.refs.Leads t u := by
  unfold next refs Refs.Leads
  cases hfind : adjacency.find? fun e => e.1 == t with
  | none => simp [hfind]
  | some e => simp [hfind]

/-- A type is expanded exactly when its references are recorded. -/
theorem expands_iff {adjacency : Adjacency} {t : TypeName} :
    adjacency.expands t = true ↔ ∃ rs, adjacency.refs t = some rs := by
  unfold expands refs
  apply Iff.intro
  · intro h
    -- an entry of `t` is found
    have hfound : (adjacency.find? fun e => e.1 == t).isSome = true :=
      List.find?_isSome.2 (List.any_eq_true.1 h)
    obtain ⟨e, he⟩ := Option.isSome_iff_exists.1 hfound
    exact ⟨e.2, by rw [he]; rfl⟩
  · intro h
    obtain ⟨rs, hrs⟩ := h
    obtain ⟨e, he, -⟩ := Option.map_eq_some_iff.1 hrs
    have het : (e.1 == t) = true := by
      simpa using List.find?_some he
    exact List.any_eq_true.2 ⟨e, List.mem_of_find?_eq_some he, het⟩

/-- The number of references recorded for types that have not been seen. -/
def pending (seen : NameSet) : Adjacency → Nat
  | [] => 0
  | (t, rs) :: rest => (if t ∈ seen then 0 else rs.size) + pending seen rest

theorem pending_empty (adjacency : Adjacency) :
    pending ∅ adjacency = (adjacency.flatMap fun e => e.2.toList).length := by
  induction adjacency with
  | nil => rfl
  | cons e rest ih =>
    simp only [pending, OrdSet.not_mem_empty, if_false, ih, List.flatMap_cons, List.length_append]
    rfl

theorem pending_insert_le (seen : NameSet) (t : TypeName) (adjacency : Adjacency) :
    pending (seen.insert t) adjacency ≤ pending seen adjacency := by
  induction adjacency with
  | nil => exact Nat.le_refl 0
  | cons e rest ih =>
    obtain ⟨u, rs⟩ := e
    simp only [pending, OrdSet.mem_insert]
    by_cases hu : u ∈ seen
    · -- counted neither before nor after
      simpa [hu] using ih
    · by_cases hut : u = t
      · -- no longer counted
        simp only [hut, true_or, if_true]
        split <;> omega
      · simpa [hu, hut] using ih

/-- Seeing a type for the first time pays for stacking its references. -/
theorem pending_insert_add_le {seen : NameSet} {t : TypeName} (ht : t ∉ seen)
    (adjacency : Adjacency) :
    pending (seen.insert t) adjacency + (adjacency.next t).length ≤ pending seen adjacency := by
  induction adjacency with
  | nil => exact Nat.le_refl 0
  | cons e rest ih =>
    obtain ⟨u, rs⟩ := e
    by_cases hut : u = t
    · -- the first record of `t` is the one that is followed
      subst hut
      have hnext : next ((u, rs) :: rest) u = rs.toList := by simp [next]
      have hrest := pending_insert_le seen u rest
      simp only [pending, OrdSet.mem_insert, true_or, if_true, if_neg ht, hnext, OrdSet.size]
      omega
    · have hnext : next ((u, rs) :: rest) t = next rest t := by simp [next, hut]
      rw [hnext]
      simp only [pending, OrdSet.mem_insert, hut, false_or]
      omega

end Adjacency

/-! ## §2 Taking types from the stack -/

namespace Search

/-- What is done with the type on top of the stack. -/
structure Look where
  /-- The type, which leaves the stack. -/
  type : TypeName
  /-- Whether it is new, so that its references are stacked. -/
  opened : Bool
  deriving Repr, DecidableEq

/-- A search over the record takes a type from its stack. The references of a new type may be
    stacked in any order. -/
inductive Takes (adjacency : Adjacency) : Search → Look → Search → Prop where
  /-- A type seen before. -/
  | again {seen : NameSet} {t : TypeName} {stack : List TypeName} :
      t ∈ seen → Takes adjacency ⟨seen, t :: stack⟩ ⟨t, false⟩ ⟨seen, stack⟩
  /-- A new type. -/
  | opened {seen : NameSet} {t : TypeName} {stack listed : List TypeName} :
      t ∉ seen → listed.Perm (adjacency.next t) →
      Takes adjacency ⟨seen, t :: stack⟩ ⟨t, true⟩ ⟨seen.insert t, listed ++ stack⟩

/-- A search from `start` begins: nothing is seen, and the references of `start` are stacked, in any
    order. -/
structure Begins (adjacency : Adjacency) (start : TypeName) (s : Search) : Prop where
  seen : s.seen = ∅
  stack : s.stack.Perm (adjacency.next start)

theorem begins_next (adjacency : Adjacency) (start : TypeName) :
    Begins adjacency start ⟨∅, adjacency.next start⟩ :=
  ⟨rfl, .refl _⟩

/-- A step takes a type from the stack. -/
theorem exists_takes_of_step {adjacency : Adjacency} {s s' : Search}
    (hs : s.step adjacency.next = some s') : ∃ look, Takes adjacency s look s' := by
  obtain ⟨seen, stack⟩ := s
  cases stack with
  | nil => simp [Search.step] at hs
  | cons t stack =>
    by_cases ht : t ∈ seen
    · simp only [Search.step, ht, if_true, Option.some.injEq] at hs
      exact ⟨⟨t, false⟩, hs ▸ .again ht⟩
    · -- the references are stacked in the order of their names
      simp only [Search.step, ht, if_false, Option.some.injEq] at hs
      exact ⟨⟨t, true⟩, hs ▸ .opened ht (.refl _)⟩

/-- Only an empty stack stops a search. -/
theorem stack_eq_nil {next : TypeName → List TypeName} {s : Search} (hs : s.step next = none) :
    s.stack = [] := by
  obtain ⟨seen, stack⟩ := s
  cases stack with
  | nil => rfl
  | cons t stack => by_cases ht : t ∈ seen <;> simp [Search.step, ht] at hs

/-! ## §3 What every search keeps -/

/-- What holds all through a search from `start`: it has met nothing out of reach, and a reference
    of the start or of a type seen is seen or will be looked at. -/
structure Sound (adjacency : Adjacency) (start : TypeName) (s : Search) : Prop where
  /-- What has been met can be reached. -/
  within : ∀ t, t ∈ s.seen ∨ t ∈ s.stack → ∃ n, adjacency.refs.ReachesIn start (n + 1) t
  /-- Nothing that the start references is forgotten. -/
  first : ∀ t, adjacency.refs.Leads start t → t ∈ s.seen ∨ t ∈ s.stack
  /-- Nothing that a type seen references is forgotten. -/
  closed : ∀ u ∈ s.seen, ∀ t, adjacency.refs.Leads u t → t ∈ s.seen ∨ t ∈ s.stack

/-- What a search still has to do at most: one step for every type on the stack, and one for every
    reference that may yet be stacked. -/
def weight (adjacency : Adjacency) (s : Search) : Nat :=
  s.stack.length + adjacency.pending s.seen

namespace Begins

variable {adjacency : Adjacency} {start : TypeName} {s : Search}

theorem sound (h : Begins adjacency start s) : Sound adjacency start s where
  within t ht := by
    have hlead : adjacency.refs.Leads start t := by
      simpa [h.seen, h.stack.mem_iff, Adjacency.mem_next_iff] using ht
    exact ⟨0, Refs.ReachesIn.refl.tail hlead⟩
  first t ht := .inr (h.stack.mem_iff.2 (Adjacency.mem_next_iff.2 ht))
  closed u hu := by simp [h.seen] at hu

theorem weight_eq (h : Begins adjacency start s) :
    s.weight adjacency = searchFuel adjacency start := by
  unfold weight searchFuel
  rw [h.seen, Adjacency.pending_empty, h.stack.length_eq, Nat.add_comm]

end Begins

namespace Takes

variable {adjacency : Adjacency} {start : TypeName} {s s' : Search} {look : Look}

/-- Taking a type from the stack keeps the search sound. -/
theorem sound (h : Takes adjacency s look s') (hs : Sound adjacency start s) :
    Sound adjacency start s' := by
  cases h with
  | @again seen t stack ht =>
    -- met before: it leaves the stack, and stays seen
    have keep : ∀ u, u ∈ seen ∨ u ∈ t :: stack → u ∈ seen ∨ u ∈ stack := by
      intro u hu
      rcases hu with hu | hu
      · exact .inl hu
      · rcases List.mem_cons.1 hu with rfl | hu
        · exact .inl ht
        · exact .inr hu
    exact {
      within := fun u hu => hs.within u (hu.imp_right (List.mem_cons_of_mem t))
      first := fun u hu => keep u (hs.first u hu)
      closed := fun v hv u hu => keep u (hs.closed v hv u hu) }
  | @opened seen t stack listed ht hlisted =>
    -- new: it is seen, and its references are stacked
    have hnext : ∀ u, u ∈ listed ↔ adjacency.refs.Leads t u := by
      intro u
      rw [hlisted.mem_iff, Adjacency.mem_next_iff]
    have keep : ∀ u, u ∈ seen ∨ u ∈ t :: stack → u ∈ seen.insert t ∨ u ∈ listed ++ stack := by
      intro u hu
      rcases hu with hu | hu
      · exact .inl (OrdSet.mem_insert.2 (.inr hu))
      · rcases List.mem_cons.1 hu with rfl | hu
        · exact .inl (OrdSet.mem_insert.2 (.inl rfl))
        · exact .inr (List.mem_append_right _ hu)
    refine { within := ?within, first := ?first, closed := ?closed }
    case within =>
      intro u hu
      rcases hu with hu | hu
      · rcases OrdSet.mem_insert.1 hu with rfl | hu
        · exact hs.within u (.inr List.mem_cons_self)
        · exact hs.within u (.inl hu)
      · rcases List.mem_append.1 hu with hu | hu
        · -- one reference more than it takes to `t`
          obtain ⟨n, hn⟩ := hs.within t (.inr List.mem_cons_self)
          exact ⟨n + 1, hn.tail ((hnext u).1 hu)⟩
        · exact hs.within u (.inr (List.mem_cons_of_mem t hu))
    case first =>
      intro u hu
      exact keep u (hs.first u hu)
    case closed =>
      intro v hv u hu
      rcases OrdSet.mem_insert.1 hv with rfl | hv
      · exact .inr (List.mem_append_left _ ((hnext u).2 hu))
      · exact keep u (hs.closed v hv u hu)

/-- Taking a type from the stack makes the search lighter. -/
theorem weight_lt (h : Takes adjacency s look s') : s'.weight adjacency < s.weight adjacency := by
  cases h with
  | again ht =>
    -- the stack alone gets shorter
    simp [weight]
  | opened ht hlisted =>
    -- the references stacked have been counted as pending until now
    have hpay := Adjacency.pending_insert_add_le ht adjacency
    have hlength := hlisted.length_eq
    simp only [weight, List.length_append, List.length_cons]
    omega

end Takes

/-- A sound search stays sound however long it runs. -/
theorem Sound.run {adjacency : Adjacency} {start : TypeName} {s : Search}
    (h : Sound adjacency start s) (fuel : Nat) :
    Sound adjacency start (Search.run adjacency.next fuel s) := by
  induction fuel generalizing s with
  | zero => exact h
  | succ fuel ih =>
    unfold Search.run
    cases hs : s.step adjacency.next with
    | none => exact h
    | some s' =>
      obtain ⟨look, htakes⟩ := exists_takes_of_step hs
      exact ih (htakes.sound h)

/-- A search with as many steps as it weighs comes to its end. -/
theorem run_stack {adjacency : Adjacency} {s : Search} {fuel : Nat}
    (hfuel : s.weight adjacency < fuel) : (Search.run adjacency.next fuel s).stack = [] := by
  induction fuel generalizing s with
  | zero => exact absurd hfuel (Nat.not_lt_zero _)
  | succ fuel ih =>
    unfold Search.run
    cases hs : s.step adjacency.next with
    | none => exact stack_eq_nil hs
    | some s' =>
      obtain ⟨look, htakes⟩ := exists_takes_of_step hs
      have hlt := htakes.weight_lt
      exact ih (by omega)

end Search

/-- A sound search that has come to its end has seen all that can be reached. -/
theorem Search.Sound.mem_seen_iff {adjacency : Adjacency} {start t : TypeName} {s : Search}
    (h : s.Sound adjacency start) (hend : s.stack = []) :
    t ∈ s.seen ↔ ∃ n, adjacency.refs.ReachesIn start (n + 1) t := by
  apply Iff.intro
  · intro ht
    exact h.within t (.inl ht)
  · intro ht
    obtain ⟨n, hn⟩ := ht
    -- nothing is left to look at, so the types seen are closed under references
    induction n generalizing t with
    | zero =>
      obtain ⟨u, hu, hut⟩ := hn.exists_last
      cases hu
      simpa [hend] using h.first t hut
    | succ n ih =>
      obtain ⟨u, hu, hut⟩ := hn.exists_last
      simpa [hend] using h.closed u (ih hu) t hut

/-- The search finds exactly the other types that a walk of at least one reference leads to, all
    of whose types but the last are expanded. -/
theorem mem_reachable_iff {adjacency : Adjacency} {start t : TypeName} :
    t ∈ reachable adjacency start ↔
      t ≠ start ∧ ∃ n, adjacency.refs.ReachesIn start (n + 1) t := by
  have hbegins := Search.begins_next adjacency start
  have hend := Search.run_stack (Nat.lt_succ_of_le (Nat.le_of_eq hbegins.weight_eq))
  have hsound := hbegins.sound.run (searchFuel adjacency start + 1)
  unfold reachable
  rw [OrdSet.mem_filter, bne_iff_ne, hsound.mem_seen_iff hend]
  exact and_comm

end TypeAtlas
