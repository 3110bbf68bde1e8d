import Mathlib.Data.List.Nodup
import TypeAtlas.Closure.Exploration
import TypeAtlas.Proofs.Closure.Reach

/-!
# Walks

A walk freed from its session: `Walk.run` looks at the types of the queue one after the other, given
the references of all types. `Walk.Orderly` is what every step keeps, and `Walk.finished_run` says
that a run with enough fuel empties its queue in that order.
-/

namespace TypeAtlas

namespace Walk

/-! ## §1 Walking over known references -/

/-- Look at the next type of the queue, given the references of all types. -/
def look (refs : Refs) (bound : Bound) (w : Walk) (t : TypeName) (depth : Nat) : Walk :=
  if bound.admits depth then
    match refs t with
    | some rs => w.expand t depth rs
    | none => w.giveUp t
  else w.pass

/-- Look at the types of the queue one after the other, `fuel` of them at most. -/
def run (refs : Refs) (bound : Bound) : Nat → Walk → Walk
  | 0, w => w
  | fuel + 1, w =>
    match w.queue with
    | [] => w
    | (t, depth) :: _ => run refs bound fuel (w.look refs bound t depth)

/-- The references in a set that have not been found, in order. -/
def fresh (w : Walk) (rs : NameSet) : List TypeName := rs.toList.filter fun t => !w.found t

theorem found_iff {w : Walk} {t : TypeName} : w.found t = true ↔ ∃ k, (t, k) ∈ w.depths := by
  unfold found
  rw [List.any_eq_true]
  apply Iff.intro
  · intro hfound
    obtain ⟨⟨u, k⟩, hmem, hut⟩ := hfound
    have heq : u = t := beq_iff_eq.1 hut
    subst heq
    exact ⟨k, hmem⟩
  · intro hfound
    obtain ⟨k, hmem⟩ := hfound
    exact ⟨(t, k), hmem, beq_self_eq_true t⟩

theorem mem_fresh_iff {w : Walk} {rs : NameSet} {t : TypeName} :
    t ∈ w.fresh rs ↔ t ∈ rs ∧ ∀ k, (t, k) ∉ w.depths := by
  unfold fresh
  rw [List.mem_filter, Bool.not_eq_true', ← Bool.not_eq_true, found_iff, not_exists]
  exact Iff.rfl

theorem nodup_fresh (w : Walk) (rs : NameSet) : (w.fresh rs).Nodup := rs.nodup_toList.filter _

/-- Discovering distinct types adds those that have not been found, all in the same way. -/
theorem foldl_discover {via : TypeName} {depth : Nat} {ts : List TypeName} (hts : ts.Nodup)
    (w : Walk) :
    ts.foldl (discover via depth) w =
      { w with
        queue := w.queue ++ (ts.filter fun t => !w.found t).map fun t => (t, depth)
        depths := w.depths ++ (ts.filter fun t => !w.found t).map fun t => (t, depth)
        parents := w.parents ++ (ts.filter fun t => !w.found t).map fun t => (t, via) } := by
  induction ts generalizing w with
  | nil => simp
  | cons t ts ih =>
    obtain ⟨ht, hts⟩ := List.nodup_cons.1 hts
    rw [List.foldl_cons, ih hts]
    by_cases hfound : w.found t = true
    · -- found before: `t` is left out on both sides
      simp [discover, hfound]
    · -- the later types are none of them `t`, so finding `t` changes nothing about them
      have hsame : (ts.filter fun u => !(w.discover via depth t).found u) =
          ts.filter fun u => !w.found u := by
        apply List.filter_congr
        intro u hu
        have hne : (t == u) = false := by
          rw [beq_eq_false_iff_ne]
          intro heq
          exact ht (heq ▸ hu)
        rw [discover, if_neg hfound]
        simp [found, hne]
      rw [hsame]
      simp [discover, hfound]

/-- Expanding a type finds its fresh references, at the end of every list. -/
theorem expand_eq (w : Walk) (t : TypeName) (depth : Nat) (rs : NameSet) :
    w.expand t depth rs =
      { queue := w.queue.tail ++ (w.fresh rs).map fun u => (u, depth + 1)
        adjacency := w.adjacency ++ [(t, rs)]
        depths := w.depths ++ (w.fresh rs).map fun u => (u, depth + 1)
        parents := w.parents ++ (w.fresh rs).map fun u => (u, t)
        unresolved := w.unresolved } := by
  unfold expand
  rw [foldl_discover rs.nodup_toList]
  rfl

/-- Expanding a type finds none twice. -/
theorem nodup_expand {w : Walk} (hdistinct : (w.depths.map Prod.fst).Nodup) (t : TypeName)
    (depth : Nat) (rs : NameSet) : ((w.expand t depth rs).depths.map Prod.fst).Nodup := by
  rw [expand_eq, List.map_append, List.map_map]
  apply hdistinct.append ((w.nodup_fresh rs).map fun _ _ heq => heq)
  -- what is fresh has not been found
  intro u hold hnew
  obtain ⟨⟨v, j⟩, hv, rfl⟩ := List.mem_map.1 hold
  obtain ⟨u, hu, rfl⟩ := List.mem_map.1 hnew
  exact (mem_fresh_iff.1 hu).2 j hv

/-! ## §2 What every step keeps -/

/-- What looking at a found type adds to the record: its references, if it is within the bound and
    can be described. -/
def expansion (refs : Refs) (bound : Bound) (e : TypeName × Nat) : Option (TypeName × NameSet) :=
  if bound.admits e.2 then (refs e.1).map fun rs => (e.1, rs) else none

theorem expansion_eq_some_iff {refs : Refs} {bound : Bound} {e : TypeName × Nat} {t : TypeName}
    {rs : NameSet} :
    expansion refs bound e = some (t, rs) ↔
      e.1 = t ∧ bound.admits e.2 = true ∧ refs t = some rs := by
  unfold expansion
  by_cases hadmits : bound.admits e.2 = true
  · simp only [hadmits, if_true, Option.map_eq_some_iff, Prod.mk.injEq, true_and]
    apply Iff.intro
    · intro h
      obtain ⟨rs', hrs, rfl, rfl⟩ := h
      exact ⟨rfl, hrs⟩
    · intro h
      obtain ⟨rfl, hrs⟩ := h
      exact ⟨rs, hrs, rfl, rfl⟩
  · -- beyond the bound nothing is added
    simp [hadmits]

/-- A walk from `root` in good order, after the types in `done` have been looked at. -/
structure Orderly (refs : Refs) (root : TypeName) (bound : Bound) (done : List (TypeName × Nat))
    (w : Walk) : Prop where
  /-- The types found are those looked at, and after them those still queued. -/
  split : w.depths = done ++ w.queue
  /-- The root comes first, and every other type found has been found through one type. -/
  from_root : ∃ rest, w.depths = (root, 0) :: rest ∧ w.parents.map Prod.fst = rest.map Prod.fst
  /-- No type is found twice. -/
  distinct : (w.depths.map Prod.fst).Nodup
  /-- Nearer types are found first. -/
  sorted : w.depths.Pairwise fun a b => a.2 ≤ b.2
  /-- No type is more than one further away than the next one in the queue. -/
  spread : ∀ e ∈ w.queue.head?, ∀ f ∈ w.depths, f.2 ≤ e.2 + 1
  /-- The types expanded are those looked at, in the same order, that can be. -/
  expanded : w.adjacency = done.filterMap (expansion refs bound)
  /-- The types given up are those within the bound that cannot be described. -/
  given_up : ∀ t, t ∈ w.unresolved ↔ ∃ k, (t, k) ∈ done ∧ bound.admits k = true ∧ refs t = none
  /-- A type is found through the first one expanded that references it, one further away. -/
  parent : ∀ t p, (t, p) ∈ w.parents → ∃ k rs, (p, k) ∈ done ∧ bound.admits k = true ∧
    (t, k + 1) ∈ w.depths ∧ (w.adjacency.find? fun e => decide (t ∈ e.2)) = some (p, rs)
  /-- What an expanded type references has been found, at most one further away. -/
  near : ∀ u k rs, (u, k) ∈ done → bound.admits k = true → refs u = some rs → ∀ t ∈ rs,
    ∃ j, (t, j) ∈ w.depths ∧ j ≤ k + 1

theorem orderly_start (refs : Refs) (root : TypeName) (bound : Bound) :
    Orderly refs root bound [] (start root) where
  split := rfl
  from_root := ⟨[], rfl, rfl⟩
  distinct := by simp [start]
  sorted := by simp [start]
  spread := by simp [start]
  expanded := rfl
  given_up t := by simp [start]
  parent t p h := by simp [start] at h
  near u k rs h := by simp at h

namespace Orderly

variable {refs : Refs} {root : TypeName} {bound : Bound} {done : List (TypeName × Nat)} {w : Walk}

theorem mem_adjacency_iff (h : Orderly refs root bound done w) {t : TypeName} {rs : NameSet} :
    (t, rs) ∈ w.adjacency ↔ ∃ k, (t, k) ∈ done ∧ bound.admits k = true ∧ refs t = some rs := by
  rw [h.expanded, List.mem_filterMap]
  apply Iff.intro
  · intro hmem
    obtain ⟨⟨u, k⟩, hdone, he⟩ := hmem
    obtain ⟨rfl, hk, hrs⟩ := expansion_eq_some_iff.1 he
    exact ⟨k, hdone, hk, hrs⟩
  · intro hmem
    obtain ⟨k, hdone, hk, hrs⟩ := hmem
    exact ⟨(t, k), hdone, expansion_eq_some_iff.2 ⟨rfl, hk, hrs⟩⟩

/-- The distance of a type is unique. -/
theorem depth_unique (h : Orderly refs root bound done w) {t : TypeName} {j k : Nat}
    (hj : (t, j) ∈ w.depths) (hk : (t, k) ∈ w.depths) : j = k := by
  have hinj := List.inj_on_of_nodup_map h.distinct hj hk rfl
  exact congrArg Prod.snd hinj

/-- What an expanded type references has been found. -/
theorem found_of_mem_adjacency (h : Orderly refs root bound done w) {u t : TypeName}
    {rs : NameSet} (hu : (u, rs) ∈ w.adjacency) (ht : t ∈ rs) : ∃ k, (t, k) ∈ w.depths := by
  obtain ⟨k, hdone, hk, hrs⟩ := h.mem_adjacency_iff.1 hu
  obtain ⟨j, hj, -⟩ := h.near u k rs hdone hk hrs t ht
  exact ⟨j, hj⟩

/-- The queue goes on with types that are no nearer. -/
theorem le_of_mem_rest (h : Orderly refs root bound done w) {t : TypeName} {k : Nat}
    {rest : List (TypeName × Nat)} (hq : w.queue = (t, k) :: rest) : ∀ e ∈ rest, k ≤ e.2 := by
  intro e he
  have hsorted := h.sorted
  rw [h.split, hq] at hsorted
  exact List.rel_of_pairwise_cons (List.pairwise_append.1 hsorted).2.1 he

/-- Looking at a type that is not expanded keeps the order. -/
theorem skip (h : Orderly refs root bound done w) {t : TypeName} {k : Nat}
    {rest : List (TypeName × Nat)} (hq : w.queue = (t, k) :: rest) {unresolved : NameSet}
    (hnone : expansion refs bound (t, k) = none)
    (hgiven : ∀ u, u ∈ unresolved ↔
      ∃ j, (u, j) ∈ done ++ [(t, k)] ∧ bound.admits j = true ∧ refs u = none) :
    Orderly refs root bound (done ++ [(t, k)]) { w with queue := rest, unresolved } where
  split := by
    show w.depths = done ++ [(t, k)] ++ rest
    rw [h.split, hq, List.append_assoc]
    rfl
  from_root := h.from_root
  distinct := h.distinct
  sorted := h.sorted
  spread e he f hf := by
    -- the next type of the queue is no nearer than the one looked at
    have hf' : f.2 ≤ k + 1 := h.spread (t, k) (by rw [hq]; rfl) f hf
    have hke : k ≤ e.2 := h.le_of_mem_rest hq e (List.mem_of_mem_head? he)
    omega
  expanded := by
    show w.adjacency = _
    rw [List.filterMap_append, ← h.expanded]
    simp [hnone]
  given_up := hgiven
  parent u p hp := by
    obtain ⟨j, rs, hdone, hrest⟩ := h.parent u p hp
    exact ⟨j, rs, List.mem_append_left _ hdone, hrest⟩
  near u j rs hu hj hrs := by
    rcases List.mem_append.1 hu with hu | hu
    · exact h.near u j rs hu hj hrs
    · -- `t` itself has no references to look at
      cases List.mem_singleton.1 hu
      have hsome : expansion refs bound (t, k) = some (t, rs) :=
        expansion_eq_some_iff.2 ⟨rfl, hj, hrs⟩
      rw [hnone] at hsome
      cases hsome

/-- Expanding a type keeps the order. -/
theorem expand (h : Orderly refs root bound done w) {t : TypeName} {k : Nat}
    {rest : List (TypeName × Nat)} (hq : w.queue = (t, k) :: rest) {rs : NameSet}
    (hk : bound.admits k = true) (hrs : refs t = some rs) :
    Orderly refs root bound (done ++ [(t, k)]) (w.expand t k rs) := by
  have hspread : ∀ f ∈ w.depths, f.2 ≤ k + 1 := h.spread (t, k) (by rw [hq]; rfl)
  rw [expand_eq, hq, List.tail_cons]
  refine
    { split := ?split, from_root := ?from_root, distinct := ?distinct, sorted := ?sorted,
      spread := ?spread, expanded := ?expanded, given_up := ?given_up, parent := ?parent,
      near := ?near }
  case split =>
    -- `t` moves from the head of the queue to the end of what is done
    simp [h.split, hq, List.append_assoc]
  case from_root =>
    obtain ⟨others, hdepths, hparents⟩ := h.from_root
    refine ⟨others ++ (w.fresh rs).map fun u => (u, k + 1), by simp [hdepths], ?_⟩
    simp [hparents]
  case distinct =>
    have hdistinct := nodup_expand h.distinct t k rs
    rwa [expand_eq] at hdistinct
  case sorted =>
    -- all fresh types are at the same distance, which none of the others exceeds
    refine List.pairwise_append.2 ⟨h.sorted, ?_, ?_⟩
    · exact List.pairwise_map.2 (List.pairwise_of_forall fun _ _ => Nat.le_refl _)
    · intro e he f hf
      obtain ⟨u, -, rfl⟩ := List.mem_map.1 hf
      exact hspread e he
  case spread =>
    intro e he f hf
    -- the next type is one of the old queue, no nearer than `t`, or one of the fresh ones
    have hke : k ≤ e.2 := by
      rcases List.mem_append.1 (List.mem_of_mem_head? he) with he | he
      · exact h.le_of_mem_rest hq e he
      · obtain ⟨u, -, rfl⟩ := List.mem_map.1 he
        exact Nat.le_succ k
    have hfk : f.2 ≤ k + 1 := by
      rcases List.mem_append.1 hf with hf | hf
      · exact hspread f hf
      · obtain ⟨u, -, rfl⟩ := List.mem_map.1 hf
        exact Nat.le_refl _
    omega
  case expanded =>
    have hsome : expansion refs bound (t, k) = some (t, rs) :=
      expansion_eq_some_iff.2 ⟨rfl, hk, hrs⟩
    simp [h.expanded, hsome]
  case given_up =>
    intro u
    rw [h.given_up]
    apply Iff.intro
    · intro hgiven
      obtain ⟨j, hmem, hj⟩ := hgiven
      exact ⟨j, List.mem_append_left _ hmem, hj⟩
    · intro hgiven
      obtain ⟨j, hmem, hj, hnone⟩ := hgiven
      rcases List.mem_append.1 hmem with hmem | hmem
      · exact ⟨j, hmem, hj, hnone⟩
      · -- `t` itself can be described
        cases List.mem_singleton.1 hmem
        rw [hrs] at hnone
        cases hnone
  case parent =>
    intro u p hp
    rcases List.mem_append.1 hp with hp | hp
    · -- found before: the record goes on behind the entry of `p`
      obtain ⟨j, rs', hdone, hj, hdepth, hfind⟩ := h.parent u p hp
      refine ⟨j, rs', List.mem_append_left _ hdone, hj, List.mem_append_left _ hdepth, ?_⟩
      rw [List.find?_append, hfind]
      rfl
    · obtain ⟨v, hv, heq⟩ := List.mem_map.1 hp
      cases heq
      obtain ⟨hmem, hnew⟩ := mem_fresh_iff.1 hv
      refine ⟨k, rs, List.mem_append_right _ (List.mem_singleton_self _), hk,
        List.mem_append_right _ (List.mem_map_of_mem hv), ?_⟩
      -- no type expanded before references it, or else it would have been found
      have hearlier : (w.adjacency.find? fun e => decide (u ∈ e.2)) = none := by
        apply List.find?_eq_none.2
        intro e he hmem'
        obtain ⟨j, hj⟩ := h.found_of_mem_adjacency he (of_decide_eq_true hmem')
        exact hnew j hj
      rw [List.find?_append, hearlier]
      simp [hmem]
  case near =>
    intro u j rs' hu hj hrs' v hv
    rcases List.mem_append.1 hu with hu | hu
    · obtain ⟨i, hi, hle⟩ := h.near u j rs' hu hj hrs' v hv
      exact ⟨i, List.mem_append_left _ hi, hle⟩
    · -- the references of `t`: found before, and then near enough, or found now
      cases List.mem_singleton.1 hu
      cases hrs.symm.trans hrs'
      by_cases hfound : ∃ i, (v, i) ∈ w.depths
      · obtain ⟨i, hi⟩ := hfound
        exact ⟨i, List.mem_append_left _ hi, hspread (v, i) hi⟩
      · have hfresh : v ∈ w.fresh rs := mem_fresh_iff.2 ⟨hv, not_exists.1 hfound⟩
        exact ⟨k + 1, List.mem_append_right _ (List.mem_map_of_mem hfresh), Nat.le_refl _⟩

/-- Looking at the next type keeps the order. -/
theorem look (h : Orderly refs root bound done w) {t : TypeName} {k : Nat}
    {rest : List (TypeName × Nat)} (hq : w.queue = (t, k) :: rest) :
    Orderly refs root bound (done ++ [(t, k)]) (w.look refs bound t k) := by
  have hrest : w.queue.tail = rest := by rw [hq]; rfl
  unfold Walk.look
  split
  case isTrue hk =>
    split
    case h_1 rs hrs => exact h.expand hq hk hrs
    case h_2 hnone =>
      -- within the bound, but it cannot be described: it is given up
      unfold giveUp pass
      rw [hrest]
      apply h.skip hq (by simp [expansion, hnone])
      intro u
      rw [OrdSet.mem_insert, h.given_up]
      apply Iff.intro
      · intro hgiven
        rcases hgiven with rfl | ⟨j, hmem, hj⟩
        · exact ⟨k, List.mem_append_right _ (List.mem_singleton_self _), hk, hnone⟩
        · exact ⟨j, List.mem_append_left _ hmem, hj⟩
      · intro hgiven
        obtain ⟨j, hmem, hj⟩ := hgiven
        rcases List.mem_append.1 hmem with hmem | hmem
        · exact .inr ⟨j, hmem, hj⟩
        · cases List.mem_singleton.1 hmem
          exact .inl rfl
  case isFalse hk =>
    -- beyond the bound: it is passed over
    unfold pass
    rw [hrest]
    apply h.skip hq (by simp [expansion, hk])
    intro u
    rw [h.given_up]
    apply Iff.intro
    · intro hgiven
      obtain ⟨j, hmem, hj⟩ := hgiven
      exact ⟨j, List.mem_append_left _ hmem, hj⟩
    · intro hgiven
      obtain ⟨j, hmem, hj, hnone⟩ := hgiven
      rcases List.mem_append.1 hmem with hmem | hmem
      · exact ⟨j, hmem, hj, hnone⟩
      · cases List.mem_singleton.1 hmem
        exact absurd hj hk

/-- Every type found is the root or a reference of a type. -/
theorem eq_root_or_leads (h : Orderly refs root bound done w) {t : TypeName} {k : Nat}
    (ht : (t, k) ∈ w.depths) : (t = root ∧ k = 0) ∨ ∃ p, (t, p) ∈ w.parents := by
  obtain ⟨rest, hdepths, hparents⟩ := h.from_root
  rw [hdepths] at ht
  rcases List.mem_cons.1 ht with heq | ht
  · cases heq
    exact .inl ⟨rfl, rfl⟩
  · have hmem : t ∈ w.parents.map Prod.fst := by
      rw [hparents]
      exact List.mem_map_of_mem ht
    obtain ⟨⟨_, p⟩, hp, rfl⟩ := List.mem_map.1 hmem
    exact .inr ⟨p, hp⟩

theorem leads_of_mem_parents (h : Orderly refs root bound done w) {t p : TypeName}
    (hp : (t, p) ∈ w.parents) : refs.Leads p t := by
  obtain ⟨k, rs, -, -, -, hfind⟩ := h.parent t p hp
  obtain ⟨j, -, -, hrs⟩ := h.mem_adjacency_iff.1 (List.mem_of_find?_eq_some hfind)
  have ht : t ∈ rs := by simpa using List.find?_some hfind
  exact ⟨rs, hrs, ht⟩

/-- A walk among known names finds no more types than there are names. -/
theorem length_depths_le (h : Orderly refs root bound done w) {names : List TypeName}
    (hroot : root ∈ names) (hnames : ∀ u t, refs.Leads u t → t ∈ names) :
    w.depths.length ≤ names.length := by
  have hsub : w.depths.map Prod.fst ⊆ names := by
    intro t ht
    obtain ⟨⟨_, k⟩, hmem, rfl⟩ := List.mem_map.1 ht
    rcases h.eq_root_or_leads hmem with ⟨rfl, -⟩ | ⟨p, hp⟩
    · exact hroot
    · exact hnames p _ (h.leads_of_mem_parents hp)
  have hle := List.Nodup.length_le_of_subset h.distinct hsub
  rwa [List.length_map] at hle

/-- A run with enough fuel ends with an empty queue, and keeps the order to its end. -/
theorem run (h : Orderly refs root bound done w) {names : List TypeName} (hroot : root ∈ names)
    (hnames : ∀ u t, refs.Leads u t → t ∈ names) {fuel : Nat}
    (hfuel : names.length ≤ fuel + done.length) :
    (w.run refs bound fuel).queue = [] ∧
      Orderly refs root bound (w.run refs bound fuel).depths (w.run refs bound fuel) := by
  have finished : ∀ {done : List (TypeName × Nat)} {w : Walk}, Orderly refs root bound done w →
      w.queue = [] → Orderly refs root bound w.depths w := by
    intro done w h hq
    have hdone : w.depths = done := by rw [h.split, hq, List.append_nil]
    rwa [hdone]
  induction fuel generalizing done w with
  | zero =>
    -- every name has been looked at, so none is left in the queue
    have hle := h.length_depths_le hroot hnames
    rw [h.split, List.length_append] at hle
    have hq : w.queue = [] := List.eq_nil_of_length_eq_zero (by omega)
    exact ⟨hq, finished h hq⟩
  | succ fuel ih =>
    unfold Walk.run
    split
    case h_1 hq => exact ⟨hq, finished h hq⟩
    case h_2 t k rest hq =>
      apply ih (h.look hq)
      rw [List.length_append, List.length_singleton]
      omega

end Orderly

/-- The record of a walk that has come to its end. -/
abbrev Finished (refs : Refs) (root : TypeName) (bound : Bound) (w : Walk) : Prop :=
  Orderly refs root bound w.depths w

theorem finished_run {refs : Refs} {root : TypeName} {bound : Bound} {names : List TypeName}
    (hroot : root ∈ names) (hnames : ∀ u t, refs.Leads u t → t ∈ names) {fuel : Nat}
    (hfuel : names.length ≤ fuel) :
    Finished refs root bound ((start root).run refs bound fuel) :=
  ((orderly_start refs root bound).run hroot hnames (by simpa using hfuel)).2

end Walk

end TypeAtlas
