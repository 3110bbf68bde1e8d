import TypeAtlas.Proofs.Closure.Walk

/-!
# The record of a walk

What a walk that has come to its end says about the types around its root: which are found and how
far away, which are expanded, and which can be reached over the record.

Main statements: `Walk.Orderly.mem_depths_iff`, `Walk.Orderly.shortest` and
`Walk.Orderly.mem_reachable_root_iff`.
-/

namespace TypeAtlas

namespace Bound

/-- A bound that admits a distance admits every shorter one. -/
theorem admits_of_le {b : Bound} {j k : Nat} (hk : b.admits k = true) (hjk : j ≤ k) :
    b.admits j = true := by
  cases b with
  | unbounded => rfl
  | upTo n =>
    have hkn : k ≤ n := of_decide_eq_true hk
    exact decide_eq_true (Nat.le_trans hjk hkn)

/-- Every bound admits the root of a walk. -/
theorem admits_zero (b : Bound) : b.admits 0 = true := by
  cases b with
  | unbounded => rfl
  | upTo n => exact decide_eq_true (Nat.zero_le n)

/-- Every whole number from minus one on stands for a bound. -/
theorem exists_ofInt?_eq_some {d : Int} (hd : -1 ≤ d) : ∃ b, ofInt? d = some b := by
  rw [← Option.ne_none_iff_exists', ne_eq, ofInt?_eq_none_iff]
  omega

/-- The distances that the bound for a whole number admits. -/
theorem admits_iff {d : Int} {b : Bound} (hb : ofInt? d = some b) {k : Nat} :
    b.admits k = true ↔ d = -1 ∨ (k : Int) ≤ d := by
  cases d with
  | ofNat n =>
    cases hb
    simp only [admits, decide_eq_true_eq, Int.ofNat_eq_natCast]
    omega
  | negSucc n =>
    cases n with
    | zero => cases hb; simp [admits]
    | succ n => cases hb

end Bound

namespace Walk

namespace Orderly

variable {refs : Refs} {root : TypeName} {bound : Bound} {w : Walk}

/-! ## §1 Distances -/

theorem root_mem_depths {done : List (TypeName × Nat)} (h : Orderly refs root bound done w) :
    (root, 0) ∈ w.depths := by
  obtain ⟨rest, hdepths, -⟩ := h.from_root
  rw [hdepths]
  exact List.mem_cons_self

/-- Whatever is found further away than the root is found through an expanded type. -/
theorem exists_parent (h : Finished refs root bound w) {t : TypeName} {k : Nat}
    (ht : (t, k + 1) ∈ w.depths) :
    ∃ p, (p, k) ∈ w.depths ∧ bound.admits k = true ∧ refs.Leads p t := by
  rcases h.eq_root_or_leads ht with ⟨-, hk⟩ | ⟨p, hp⟩
  · -- the root is at distance zero
    cases hk
  · obtain ⟨j, rs, hdone, hj, hdepth, -⟩ := h.parent t p hp
    cases h.depth_unique ht hdepth
    exact ⟨p, hdone, hj, h.leads_of_mem_parents hp⟩

/-- A type found at a distance is reached by a walk of that length. -/
theorem reachesIn (h : Finished refs root bound w) {t : TypeName} {k : Nat}
    (ht : (t, k) ∈ w.depths) : refs.ReachesIn root k t := by
  induction k generalizing t with
  | zero =>
    rcases h.eq_root_or_leads ht with ⟨rfl, -⟩ | ⟨p, hp⟩
    · exact .refl
    · -- a type found through another one is not at distance zero
      obtain ⟨j, -, -, -, hdepth, -⟩ := h.parent t p hp
      cases h.depth_unique ht hdepth
  | succ k ih =>
    -- a walk to the type before it, and one more reference
    obtain ⟨p, hp, -, hlead⟩ := h.exists_parent ht
    exact (ih hp).tail hlead

/-- A type within reach of the bound is found, no further away than any walk to it is long. -/
theorem exists_depth_le (h : Finished refs root bound w) {t : TypeName} {n : Nat}
    (hreach : refs.ReachesIn root n t) (hbound : ∀ m < n, bound.admits m = true) :
    ∃ k ≤ n, (t, k) ∈ w.depths := by
  induction hreach with
  | refl => exact ⟨0, Nat.le_refl 0, h.root_mem_depths⟩
  | @tail n u t _ hlead ih =>
    obtain ⟨k, hkn, hu⟩ := ih fun m hm => hbound m (Nat.lt_succ_of_lt hm)
    -- `u` is no further away than the walk goes, so it is expanded, and `t` found with it
    obtain ⟨rs, hrs, ht⟩ := hlead
    have hk : bound.admits k = true := hbound k (Nat.lt_succ_of_le hkn)
    obtain ⟨j, hj, hjk⟩ := h.near u k rs hu hk hrs t ht
    exact ⟨j, by omega, hj⟩

/-- The distance of a type is the length of the shortest walk to it. -/
theorem shortest (h : Finished refs root bound w) {t : TypeName} {k n : Nat}
    (ht : (t, k) ∈ w.depths) (hreach : refs.ReachesIn root n t) : k ≤ n := by
  by_contra hlt
  -- a shorter walk stays within the bound, so the type would have been found by it
  obtain ⟨i, rfl⟩ : ∃ i, k = i + 1 := ⟨k - 1, by omega⟩
  obtain ⟨-, -, hi, -⟩ := h.exists_parent ht
  have hbound : ∀ m < n, bound.admits m = true := by
    intro m hm
    exact Bound.admits_of_le hi (by omega)
  obtain ⟨j, hjn, hj⟩ := h.exists_depth_le hreach hbound
  have hjk := h.depth_unique hj ht
  omega

/-- A type is found at a distance exactly when it has that distance, and the types before it on the
    way are within the bound. -/
theorem mem_depths_iff_isDistance (h : Finished refs root bound w) {t : TypeName} {k : Nat} :
    (t, k) ∈ w.depths ↔ refs.IsDistance root k t ∧ ∀ m < k, bound.admits m = true := by
  apply Iff.intro
  · intro hk
    refine ⟨⟨h.reachesIn hk, fun n hreach => h.shortest hk hreach⟩, ?_⟩
    intro m hm
    obtain ⟨i, rfl⟩ : ∃ i, k = i + 1 := ⟨k - 1, by omega⟩
    obtain ⟨-, -, hi, -⟩ := h.exists_parent hk
    exact Bound.admits_of_le hi (Nat.le_of_lt_succ hm)
  · intro hk
    obtain ⟨⟨hreach, hshortest⟩, hbound⟩ := hk
    -- it is found no further away, and no nearer than any walk leads
    obtain ⟨j, hjk, hj⟩ := h.exists_depth_le hreach hbound
    have hkj : k ≤ j := hshortest j (h.reachesIn hj)
    rwa [Nat.le_antisymm hjk hkj] at hj

/-- The types found are the root and those that a walk within reach of the bound leads to. -/
theorem mem_depths_iff (h : Finished refs root bound w) {t : TypeName} :
    (∃ k, (t, k) ∈ w.depths) ↔
      t = root ∨ ∃ n, bound.admits n = true ∧ refs.ReachesIn root (n + 1) t := by
  apply Iff.intro
  · intro hfound
    obtain ⟨k, hk⟩ := hfound
    cases k with
    | zero =>
      -- only the root is at distance zero
      cases h.reachesIn hk
      exact .inl rfl
    | succ k =>
      obtain ⟨-, -, hadmits, -⟩ := h.exists_parent hk
      exact .inr ⟨k, hadmits, h.reachesIn hk⟩
  · intro ht
    rcases ht with rfl | ⟨n, hn, hreach⟩
    · exact ⟨0, h.root_mem_depths⟩
    · have hbound : ∀ m < n + 1, bound.admits m = true := by
        intro m hm
        exact Bound.admits_of_le hn (Nat.le_of_lt_succ hm)
      obtain ⟨k, -, hk⟩ := h.exists_depth_le hreach hbound
      exact ⟨k, hk⟩

/-! ## §2 Expanded types -/

/-- The references recorded for a type are the known ones, if it is within the bound. -/
theorem refs_adjacency_iff (h : Finished refs root bound w) {t : TypeName} {rs : NameSet} :
    w.adjacency.refs t = some rs ↔
      ∃ k, (t, k) ∈ w.depths ∧ bound.admits k = true ∧ refs t = some rs := by
  rw [← h.mem_adjacency_iff]
  apply Iff.intro
  · intro hrefs
    obtain ⟨⟨u, rs'⟩, hfind, rfl⟩ := Option.map_eq_some_iff.1 hrefs
    have hut : u = t := by simpa using List.find?_some hfind
    rw [← hut]
    exact List.mem_of_find?_eq_some hfind
  · intro hmem
    obtain ⟨rs', hrs'⟩ : ∃ rs', w.adjacency.refs t = some rs' :=
      Adjacency.expands_iff.1 (List.any_eq_true.2 ⟨(t, rs), hmem, beq_self_eq_true t⟩)
    obtain ⟨⟨u, _⟩, hfind, rfl⟩ := Option.map_eq_some_iff.1 hrs'
    have hut : u = t := by simpa using List.find?_some hfind
    cases hut
    -- both records of `t` hold what is known of it
    obtain ⟨-, -, -, hknown⟩ := h.mem_adjacency_iff.1 hmem
    obtain ⟨-, -, -, hfirst⟩ := h.mem_adjacency_iff.1 (List.mem_of_find?_eq_some hfind)
    rw [hrs', ← hknown, ← hfirst]

theorem expands_iff (h : Finished refs root bound w) {t : TypeName} :
    w.adjacency.expands t = true ↔
      ∃ k, (t, k) ∈ w.depths ∧ bound.admits k = true ∧ ∃ rs, refs t = some rs := by
  rw [Adjacency.expands_iff]
  apply Iff.intro
  · intro hrecorded
    obtain ⟨rs, hrs⟩ := hrecorded
    obtain ⟨k, hmem, hk, hknown⟩ := h.refs_adjacency_iff.1 hrs
    exact ⟨k, hmem, hk, rs, hknown⟩
  · intro hfound
    obtain ⟨k, hmem, hk, rs, hknown⟩ := hfound
    exact ⟨rs, h.refs_adjacency_iff.2 ⟨k, hmem, hk, hknown⟩⟩

/-- The types expanded are those that can be described and that a walk within the bound leads to. -/
theorem expands_iff_exists_walk (h : Finished refs root bound w) {t : TypeName} :
    w.adjacency.expands t = true ↔
      (∃ rs, refs t = some rs) ∧ ∃ n, bound.admits n = true ∧ refs.ReachesIn root n t := by
  rw [h.expands_iff]
  apply Iff.intro
  · intro hexpands
    obtain ⟨k, hk, hadmits, hknown⟩ := hexpands
    exact ⟨hknown, k, hadmits, h.reachesIn hk⟩
  · intro hwalk
    obtain ⟨hknown, n, hadmits, hreach⟩ := hwalk
    -- the type is found no further away than the walk goes
    have hbound : ∀ m < n, bound.admits m = true := by
      intro m hm
      exact Bound.admits_of_le hadmits (Nat.le_of_lt hm)
    obtain ⟨k, hkn, hk⟩ := h.exists_depth_le hreach hbound
    exact ⟨k, hk, Bound.admits_of_le hadmits hkn, hknown⟩

/-- A walk from the root that ends within reach of the bound stays among expanded types. -/
theorem reachesIn_adjacency (h : Finished refs root bound w) {t : TypeName} {n : Nat}
    (hreach : refs.ReachesIn root n t) (hbound : ∀ m < n, bound.admits m = true) :
    w.adjacency.refs.ReachesIn root n t := by
  induction hreach with
  | refl => exact .refl
  | @tail n u t hreach hlead ih =>
    have hbound' : ∀ m < n, bound.admits m = true := fun m hm => hbound m (Nat.lt_succ_of_lt hm)
    obtain ⟨k, hkn, hu⟩ := h.exists_depth_le hreach hbound'
    -- `u` is expanded, so the last reference is on record
    obtain ⟨rs, hrs, ht⟩ := hlead
    have hk : bound.admits k = true := hbound k (Nat.lt_succ_of_le hkn)
    exact (ih hbound').tail ⟨rs, h.refs_adjacency_iff.2 ⟨k, hu, hk, hrs⟩, ht⟩

/-- The record of an unbounded walk has all walks that go on from a type reached. -/
theorem reachesIn_adjacency_iff (h : Finished refs root .unbounded w) {u t : TypeName} {m n : Nat}
    (hu : refs.ReachesIn root m u) :
    w.adjacency.refs.ReachesIn u n t ↔ refs.ReachesIn u n t := by
  have known : ∀ {v : TypeName} {rs : NameSet}, w.adjacency.refs v = some rs →
      refs v = some rs := by
    intro v rs hrs
    obtain ⟨-, -, -, hknown⟩ := h.refs_adjacency_iff.1 hrs
    exact hknown
  apply Iff.intro
  · exact fun hreach => hreach.mono fun _ _ => known
  · intro hreach
    induction hreach with
    | refl => exact .refl
    | @tail n v t hreach hlead ih =>
      -- `v` is reached from the root as well, so it has been found and expanded
      obtain ⟨k, -, hv⟩ := h.exists_depth_le (hu.append hreach) fun _ _ => rfl
      obtain ⟨rs, hrs, ht⟩ := hlead
      exact ih.tail ⟨rs, h.refs_adjacency_iff.2 ⟨k, hv, rfl, hrs⟩, ht⟩

/-- What the root reaches over the record is what a walk within reach of the bound leads to. -/
theorem mem_reachable_root_iff (h : Finished refs root bound w) {t : TypeName} :
    t ∈ reachable w.adjacency root ↔
      t ≠ root ∧ ∃ n, bound.admits n = true ∧ refs.ReachesIn root (n + 1) t := by
  rw [mem_reachable_iff]
  apply and_congr_right
  intro _
  apply Iff.intro
  · intro hwalk
    obtain ⟨n, hn⟩ := hwalk
    -- the last type before `t` is expanded, so its distance is within the bound
    obtain ⟨u, -, rs, hrs, ht⟩ := hn.exists_last
    obtain ⟨k, hu, hk, hknown⟩ := h.refs_adjacency_iff.1 hrs
    exact ⟨k, hk, (h.reachesIn hu).tail ⟨rs, hknown, ht⟩⟩
  · intro hwalk
    obtain ⟨n, hn, hreach⟩ := hwalk
    have hbound : ∀ m < n + 1, bound.admits m = true := by
      intro m hm
      exact Bound.admits_of_le hn (Nat.le_of_lt_succ hm)
    exact ⟨n, h.reachesIn_adjacency hreach hbound⟩

/-- The types found are the root and those that it reaches over the record. -/
theorem mem_depths_iff_reachable (h : Finished refs root bound w) {t : TypeName} :
    (∃ k, (t, k) ∈ w.depths) ↔ t = root ∨ t ∈ reachable w.adjacency root := by
  rw [h.mem_depths_iff, h.mem_reachable_root_iff]
  tauto

/-- The types found through another one are those that the root reaches over the record. -/
theorem mem_parents_iff_reachable (h : Finished refs root bound w) {t : TypeName} :
    t ∈ w.parents.map Prod.fst ↔ t ∈ reachable w.adjacency root := by
  obtain ⟨rest, hdepths, hparents⟩ := h.from_root
  have hdistinct := h.distinct
  rw [hdepths, List.map_cons, List.nodup_cons] at hdistinct
  have hfound : (∃ k, (t, k) ∈ w.depths) ↔ t = root ∨ t ∈ rest.map Prod.fst := by
    simp [hdepths, Prod.ext_iff, exists_or]
  have hreach := hfound.symm.trans h.mem_depths_iff_reachable
  have hroot : root ∉ reachable w.adjacency root := fun hmem => (mem_reachable_iff.1 hmem).1 rfl
  rw [hparents]
  by_cases ht : t = root
  · -- the root is neither found through another type nor among those reached
    subst ht
    exact ⟨fun hmem => absurd hmem hdistinct.1, fun hmem => absurd hmem hroot⟩
  · simpa [ht] using hreach

end Orderly

end Walk

end TypeAtlas
