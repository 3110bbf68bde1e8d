import TypeAtlas.Proofs.Closure.ShortestPaths
import TypeAtlas.Proofs.Closure.Tree

/-!
# Explorations cut short

Two walks from one root with different bounds look at the same types, in the same order, as long as
both bounds admit the next one. From there on the one with the smaller bound passes over its queue,
and the other one finds and expands only types that are further away. So the record of the first is
a part of the record of the second, and its tree is the other tree without the lower levels.

Main statements: `Walk.Orderly.goesBeyond_run` and `TypeIndex.explore_truncates`.
-/

namespace TypeAtlas

/-- A test that the first of two lists passes and the second one fails throughout keeps the
    first. -/
private theorem filter_append_eq_left {α : Type} {p : α → Bool} {xs ys : List α}
    (hpass : ∀ a ∈ xs, p a = true) (hfail : ∀ a ∈ ys, ¬ p a = true) :
    (xs ++ ys).filter p = xs := by
  rw [List.filter_append, List.filter_eq_self.2 hpass, List.filter_eq_nil_iff.2 hfail,
    List.append_nil]

/-- A list that is continued twice is continued, by things of which the second continuation tells no
    more than the first one does. -/
private theorem exists_append_trans {α : Type} {p q : α → Prop} {xs ys zs : List α}
    (h₁ : ∃ later, ys = xs ++ later ∧ ∀ a ∈ later, p a)
    (h₂ : ∃ later, zs = ys ++ later ∧ ∀ a ∈ later, q a) (hpq : ∀ a, p a → q a) :
    ∃ later, zs = xs ++ later ∧ ∀ a ∈ later, q a := by
  obtain ⟨later₁, heq₁, hlater₁⟩ := h₁
  obtain ⟨later₂, heq₂, hlater₂⟩ := h₂
  refine ⟨later₁ ++ later₂, by rw [heq₂, heq₁, List.append_assoc], ?_⟩
  intro a ha
  rcases List.mem_append.1 ha with ha | ha
  · exact hpq a (hlater₁ a ha)
  · exact hlater₂ a ha

namespace Walk

variable {refs : Refs} {root : TypeName} {bound : Bound} {d : Nat} {w w' w'' : Walk}

/-! ## §1 Walks that go on beyond a distance -/

/-- The walk `w'` has gone on from `w` beyond the distance `d`: the types that it has expanded since
    are further away, and those that it has found since are so by more than one. -/
structure GoesBeyond (d : Nat) (w w' : Walk) : Prop where
  depths : ∃ later, w'.depths = w.depths ++ later ∧ ∀ e ∈ later, d + 1 < e.2
  parents : ∃ later, w'.parents = w.parents ++ later ∧
    ∀ e ∈ later, ∃ k, (e.1, k) ∈ w'.depths ∧ d + 1 < k
  adjacency : ∃ later, w'.adjacency = w.adjacency ++ later ∧
    ∀ a ∈ later, ∃ k, (a.1, k) ∈ w'.depths ∧ d < k

namespace GoesBeyond

/-- A walk that has found and expanded nothing more. -/
theorem of_eq (hdepths : w'.depths = w.depths) (hparents : w'.parents = w.parents)
    (hadjacency : w'.adjacency = w.adjacency) : GoesBeyond d w w' where
  depths := ⟨[], by rw [hdepths, List.append_nil], nofun⟩
  parents := ⟨[], by rw [hparents, List.append_nil], nofun⟩
  adjacency := ⟨[], by rw [hadjacency, List.append_nil], nofun⟩

theorem mem_depths (h : GoesBeyond d w w') {e : TypeName × Nat} (he : e ∈ w.depths) :
    e ∈ w'.depths := by
  obtain ⟨later, hdepths, -⟩ := h.depths
  rw [hdepths]
  exact List.mem_append_left _ he

theorem trans (h₁ : GoesBeyond d w w') (h₂ : GoesBeyond d w' w'') : GoesBeyond d w w'' where
  depths := exists_append_trans h₁.depths h₂.depths fun _ he => he
  parents := by
    apply exists_append_trans h₁.parents h₂.parents
    -- what the first walk has found the second one has found as well
    intro e he
    obtain ⟨k, hk, hbeyond⟩ := he
    exact ⟨k, h₂.mem_depths hk, hbeyond⟩
  adjacency := by
    apply exists_append_trans h₁.adjacency h₂.adjacency
    intro a ha
    obtain ⟨k, hk, hbeyond⟩ := ha
    exact ⟨k, h₂.mem_depths hk, hbeyond⟩

end GoesBeyond

/-- The queue holds only types beyond the distance `d`, all of them found. -/
def QueueBeyond (d : Nat) (w : Walk) : Prop := ∀ e ∈ w.queue, d < e.2 ∧ e ∈ w.depths

/-- Looking at a type beyond the distance goes beyond it, and so does the queue that is left. -/
theorem QueueBeyond.look (hw : QueueBeyond d w) {t : TypeName} {k : Nat}
    {rest : List (TypeName × Nat)} (hq : w.queue = (t, k) :: rest) :
    GoesBeyond d w (w.look refs bound t k) ∧ QueueBeyond d (w.look refs bound t k) := by
  have hhead : d < k ∧ (t, k) ∈ w.depths := hw (t, k) (by rw [hq]; exact List.mem_cons_self)
  have hrest : ∀ e ∈ w.queue.tail, d < e.2 ∧ e ∈ w.depths := fun e he =>
    hw e (List.mem_of_mem_tail he)
  unfold Walk.look
  split
  case isTrue =>
    split
    case h_1 rs hrs =>
      -- what is found through `t` is further away than `t` is
      rw [expand_eq]
      refine ⟨{ depths := ?depths, parents := ?parents, adjacency := ?adjacency }, ?queue⟩
      case depths =>
        refine ⟨_, rfl, ?_⟩
        intro e he
        obtain ⟨u, -, rfl⟩ := List.mem_map.1 he
        exact Nat.succ_lt_succ hhead.1
      case parents =>
        refine ⟨_, rfl, ?_⟩
        intro e he
        obtain ⟨u, hu, rfl⟩ := List.mem_map.1 he
        exact ⟨k + 1, List.mem_append_right _ (List.mem_map_of_mem hu), Nat.succ_lt_succ hhead.1⟩
      case adjacency =>
        refine ⟨_, rfl, ?_⟩
        intro a ha
        cases List.mem_singleton.1 ha
        exact ⟨k, List.mem_append_left _ hhead.2, hhead.1⟩
      case queue =>
        intro e he
        rcases List.mem_append.1 he with he | he
        · exact ⟨(hrest e he).1, List.mem_append_left _ (hrest e he).2⟩
        · refine ⟨?_, List.mem_append_right _ he⟩
          obtain ⟨u, -, rfl⟩ := List.mem_map.1 he
          exact Nat.lt_succ_of_lt hhead.1
    case h_2 => exact ⟨.of_eq rfl rfl rfl, hrest⟩
  case isFalse => exact ⟨.of_eq rfl rfl rfl, hrest⟩

/-- A run that begins beyond the distance goes on beyond it. -/
theorem QueueBeyond.run (hw : QueueBeyond d w) (fuel : Nat) :
    GoesBeyond d w (w.run refs bound fuel) := by
  induction fuel generalizing w with
  | zero => exact .of_eq rfl rfl rfl
  | succ fuel ih =>
    unfold Walk.run
    split
    case h_1 => exact .of_eq rfl rfl rfl
    case h_2 t k rest hq =>
      obtain ⟨hgoes, hnext⟩ := hw.look hq
      exact hgoes.trans (ih hnext)

/-- A run that begins beyond its bound passes over its queue. -/
theorem QueueBeyond.run_upTo (hw : QueueBeyond d w) (fuel : Nat) :
    w.run refs (.upTo d) fuel = { w with queue := w.queue.drop fuel } := by
  -- every step drops the head of the queue and changes nothing else
  induction fuel generalizing w with
  | zero => rfl
  | succ fuel ih =>
    cases hq : w.queue with
    | nil =>
      unfold Walk.run
      rw [hq]
      show w = Walk.mk [] _ _ _ _
      rw [← hq]
    | cons e rest =>
      obtain ⟨t, k⟩ := e
      have hhead : d < k := (hw (t, k) (by rw [hq]; exact List.mem_cons_self)).1
      unfold Walk.run
      rw [hq]
      have hpass : w.look refs (.upTo d) t k = w.pass :=
        if_neg fun hk => Nat.not_le_of_lt hhead (of_decide_eq_true hk)
      have hrest : QueueBeyond d w.pass := fun e he => hw e (List.mem_of_mem_tail he)
      show (w.look refs (.upTo d) t k).run refs (.upTo d) fuel = _
      rw [hpass, ih hrest]
      show Walk.mk (w.queue.tail.drop fuel) _ _ _ _ = _
      rw [hq]
      rfl

/-! ## §2 Two bounds -/

/-- Where both bounds admit the next type, looking at it is the same. -/
theorem look_congr {b b' : Bound} {t : TypeName} {k : Nat} (h : b.admits k = b'.admits k) :
    w.look refs b t k = w.look refs b' t k := by
  unfold look
  rw [h]

namespace Orderly

variable {done : List (TypeName × Nat)}

/-- A run with a larger bound goes on from what the run with the bound `d` comes to, beyond that
    distance. -/
theorem goesBeyond_run (h : Orderly refs root (.upTo d) done w)
    (hdeep : ∀ k ≤ d, bound.admits k = true) (fuel : Nat) :
    GoesBeyond d (w.run refs (.upTo d) fuel) (w.run refs bound fuel) := by
  induction fuel generalizing done w with
  | zero => exact .of_eq rfl rfl rfl
  | succ fuel ih =>
    cases hq : w.queue with
    | nil =>
      unfold Walk.run
      rw [hq]
      exact .of_eq rfl rfl rfl
    | cons e rest =>
      obtain ⟨t, k⟩ := e
      by_cases hk : k ≤ d
      · -- both bounds admit the next type
        have hsame : w.look refs bound t k = w.look refs (.upTo d) t k :=
          look_congr ((hdeep k hk).trans (decide_eq_true hk).symm)
        unfold Walk.run
        rw [hq]
        simp only [hsame]
        exact ih (h.look hq)
      · -- the queue goes on with types that are no nearer, so all of it is beyond the bound
        have hbeyond : QueueBeyond d w := by
          intro e he
          have hfound : e ∈ w.depths := by
            rw [h.split]
            exact List.mem_append_right _ he
          rw [hq] at he
          rcases List.mem_cons.1 he with rfl | he
          · exact ⟨Nat.lt_of_not_le hk, hfound⟩
          · exact ⟨Nat.lt_of_lt_of_le (Nat.lt_of_not_le hk) (h.le_of_mem_rest hq e he), hfound⟩
        have hgoes : GoesBeyond d w (w.run refs bound (fuel + 1)) := hbeyond.run (fuel + 1)
        rw [hbeyond.run_upTo (fuel + 1)]
        exact { depths := hgoes.depths, parents := hgoes.parents, adjacency := hgoes.adjacency }

/-- A walk with a bound finds nothing beyond it but what is one reference away. -/
theorem depth_le (h : Finished refs root (.upTo d) w) {t : TypeName} {k : Nat}
    (ht : (t, k) ∈ w.depths) : k ≤ d + 1 := by
  cases k with
  | zero => exact Nat.zero_le _
  | succ k =>
    have hbefore := (h.mem_depths_iff_isDistance.1 ht).2 k (Nat.lt_succ_self k)
    exact Nat.succ_le_succ (of_decide_eq_true hbefore)

end Orderly

end Walk

/-! ## §3 Truncations -/

namespace ClosureEntry

/-- A tree without what lies more than `levels` levels below its top. The entries of the last level
    look as those of types about which nothing was asked. -/
def cutBelow : Nat → ClosureEntry → ClosureEntry
  | 0, .node t depth _ _ _ => .node t depth false false []
  | levels + 1, .node t depth expanded unresolved children =>
    .node t depth expanded unresolved (children.map (cutBelow levels))

end ClosureEntry

/-- The exploration `e` is what is left of `e'` when the walk is cut off at the depth `d`. -/
structure Exploration.IsTruncation (d : Nat) (e e' : Exploration) : Prop where
  /-- The types found are a first part of the others, up to one reference beyond the depth. -/
  depths_prefix : e.depths <+: e'.depths
  depths : e.depths = e'.depths.filter fun a => decide (a.2 ≤ d + 1)
  /-- Each of them was found through the same type, in the same order. -/
  parents_prefix : e.parents <+: e'.parents
  parents : e.parents = e'.parents.filter fun a => decide (e'.depthOf a.1 ≤ d + 1)
  /-- The types expanded are a first part of the others, up to the depth, with the same
      references. -/
  adjacency_prefix : e.adjacency <+: e'.adjacency
  adjacency : e.adjacency = e'.adjacency.filter fun a => decide (e'.depthOf a.1 ≤ d)
  /-- The types unresolved are the others up to the depth. -/
  unresolved : ∀ t, t ∈ e.unresolved ↔ t ∈ e'.unresolved ∧ e'.depthOf t ≤ d
  /-- The tree is the other one down to the level one below the depth. -/
  entries : e.entries = e'.entries.map (ClosureEntry.cutBelow d)
  /-- No other types are reached. -/
  types : ∀ t ∈ e.types, t ∈ e'.types

namespace Walk

namespace Orderly

variable {refs : Refs} {root : TypeName} {bound : Bound} {d : Nat} {w w' : Walk}

/-- What was found up to one reference beyond the bound is found by both walks. -/
theorem mem_depths_iff_of_goesBeyond (h : Finished refs root (.upTo d) w)
    (hgoes : GoesBeyond d w w')
    {t : TypeName} {k : Nat} : (t, k) ∈ w.depths ↔ (t, k) ∈ w'.depths ∧ k ≤ d + 1 := by
  apply Iff.intro
  · intro ht
    exact ⟨hgoes.mem_depths ht, h.depth_le ht⟩
  · intro ht
    obtain ⟨ht, hk⟩ := ht
    obtain ⟨later, hdepths, hlater⟩ := hgoes.depths
    rw [hdepths] at ht
    rcases List.mem_append.1 ht with ht | ht
    · exact ht
    · exact absurd (hlater _ ht) (Nat.not_lt_of_le hk)

/-- The types found through a type within the bound are the same. -/
theorem foundThrough_eq_of_goesBeyond (h' : Finished refs root bound w')
    (hgoes : GoesBeyond d w w') {t : TypeName} {k : Nat} (ht : (t, k) ∈ w.depths) (hk : k ≤ d) :
    (w.exploration root (.upTo d)).foundThrough t = (w'.exploration root bound).foundThrough t := by
  apply OrdSet.ext
  intro u
  rw [Exploration.mem_foundThrough_iff, Exploration.mem_foundThrough_iff]
  obtain ⟨later, hparents, hlater⟩ := hgoes.parents
  show (u, t) ∈ w.parents ↔ (u, t) ∈ w'.parents
  rw [hparents, List.mem_append]
  apply (or_iff_left _).symm
  -- what was found later is too far away to have been found through `t`
  intro hu
  obtain ⟨j, hj, hbeyond⟩ := hlater _ hu
  have hmem : (u, t) ∈ w'.parents := by
    rw [hparents]
    exact List.mem_append_right _ hu
  have hdepth := h'.depth_unique hj (h'.depth_of_mem_parents hmem (hgoes.mem_depths ht))
  omega

/-- A type within the bound is expanded by both walks or by none. -/
theorem expands_eq_of_goesBeyond (h : Finished refs root (.upTo d) w)
    (h' : Finished refs root bound w') (hgoes : GoesBeyond d w w')
    (hdeep : ∀ k ≤ d, bound.admits k = true) {t : TypeName} {k : Nat} (ht : (t, k) ∈ w.depths)
    (hk : k ≤ d) : w.adjacency.expands t = w'.adjacency.expands t := by
  rw [Bool.eq_iff_iff, h.expands_iff.trans (h.exists_depth_and_iff ht),
    h'.expands_iff.trans (h'.exists_depth_and_iff (hgoes.mem_depths ht))]
  exact and_congr_left' (iff_of_true (decide_eq_true hk) (hdeep k hk))

/-- The types unresolved are the same within the bound, and there are none beyond it. -/
theorem mem_unresolved_iff_of_goesBeyond (h : Finished refs root (.upTo d) w)
    (h' : Finished refs root bound w') (hgoes : GoesBeyond d w w')
    (hdeep : ∀ k ≤ d, bound.admits k = true) {t : TypeName} :
    t ∈ w.unresolved ↔ t ∈ w'.unresolved ∧ ∃ k, (t, k) ∈ w'.depths ∧ k ≤ d := by
  rw [h.given_up, h'.given_up]
  apply Iff.intro
  · intro ht
    obtain ⟨k, hmem, hk, hnone⟩ := ht
    have hk : k ≤ d := of_decide_eq_true hk
    have hmem := hgoes.mem_depths hmem
    exact ⟨⟨k, hmem, hdeep k hk, hnone⟩, k, hmem, hk⟩
  · intro ht
    obtain ⟨⟨-, -, -, hnone⟩, k, hmem, hk⟩ := ht
    have hmem : (t, k) ∈ w.depths :=
      (mem_depths_iff_of_goesBeyond h hgoes).2 ⟨hmem, Nat.le_succ_of_le hk⟩
    exact ⟨k, hmem, decide_eq_true hk, hnone⟩

/-- Nothing is found through a type beyond the bound, so it is the top of no tree. -/
theorem entriesUnder_eq_nil (h : Finished refs root (.upTo d) w) {t : TypeName}
    (ht : (t, d + 1) ∈ w.depths) (height : Nat) :
    (w.exploration root (.upTo d)).entriesUnder height t = [] := by
  cases height with
  | zero => rfl
  | succ height =>
    apply List.map_eq_nil_iff.2
    apply List.eq_nil_iff_forall_not_mem.2
    intro u hu
    have hdepth := h.depth_of_mem_parents (Exploration.mem_foundThrough_iff.1 hu) ht
    exact absurd (h.depth_le hdepth) (Nat.not_succ_le_self _)

/-- Under a type within the bound, the tree of the shorter walk is the other one cut off at the
    level one below the bound. -/
theorem entriesUnder_eq_map_cutBelow (h : Finished refs root (.upTo d) w)
    (h' : Finished refs root bound w') (hgoes : GoesBeyond d w w')
    (hdeep : ∀ k ≤ d, bound.admits k = true) {levels k height height' : Nat} {t : TypeName}
    (hlevels : k + levels = d) (ht : (t, k) ∈ w.depths)
    (hheight : ∀ e ∈ w.depths, e.2 ≤ k + height)
    (hheight' : ∀ e ∈ w'.depths, e.2 ≤ k + height') :
    (w.exploration root (.upTo d)).entriesUnder height t =
      ((w'.exploration root bound).entriesUnder height' t).map (ClosureEntry.cutBelow levels) := by
  induction levels generalizing k height height' t with
  | zero =>
    cases hlevels
    rw [h.entriesUnder_eq ht hheight, h'.entriesUnder_eq (hgoes.mem_depths ht) hheight',
      ← foundThrough_eq_of_goesBeyond h' hgoes ht (Nat.le_refl _), List.map_map]
    apply List.map_congr_left
    intro u hu
    have hu : (u, k + 1) ∈ w.depths :=
      h.depth_of_mem_parents (Exploration.mem_foundThrough_iff.1 hu) ht
    -- `u` is one reference beyond the bound, so nothing was asked about it
    have hout : ¬ (Bound.upTo k).admits (k + 1) = true := fun hk =>
      Nat.not_succ_le_self k (of_decide_eq_true hk)
    have hexpands : w.adjacency.expands u = false := by
      rw [← Bool.not_eq_true, h.expands_iff.trans (h.exists_depth_and_iff hu)]
      exact fun hk => hout hk.1
    have hunresolved : u ∉ w.unresolved := by
      rw [(h.given_up u).trans (h.exists_depth_and_iff hu)]
      exact fun hk => hout hk.1
    rw [hexpands, decide_eq_false hunresolved, entriesUnder_eq_nil h hu]
    rfl
  | succ levels ih =>
    have hk : k + 1 ≤ d := by omega
    rw [h.entriesUnder_eq ht hheight, h'.entriesUnder_eq (hgoes.mem_depths ht) hheight',
      ← foundThrough_eq_of_goesBeyond h' hgoes ht (Nat.le_of_succ_le hk), List.map_map]
    apply List.map_congr_left
    intro u hu
    have hu : (u, k + 1) ∈ w.depths :=
      h.depth_of_mem_parents (Exploration.mem_foundThrough_iff.1 hu) ht
    -- there are types further away than `t`, so a level is left on both sides
    have hroom : k + 1 ≤ k + height := hheight _ hu
    have hroom' : k + 1 ≤ k + height' := hheight' _ (hgoes.mem_depths hu)
    have hchildren := @ih (k + 1) (height - 1) (height' - 1) u (by omega) hu
      (fun e he => by have := hheight e he; omega) (fun e he => by have := hheight' e he; omega)
    have hunresolved : u ∈ w.unresolved ↔ u ∈ w'.unresolved :=
      (mem_unresolved_iff_of_goesBeyond h h' hgoes hdeep).trans
        (and_iff_left ⟨k + 1, hgoes.mem_depths hu, hk⟩)
    rw [expands_eq_of_goesBeyond h h' hgoes hdeep hu hk, decide_eq_decide.2 hunresolved, hchildren]
    rfl

/-- Of a list that is continued with what is further away than `n`, the depths tell what it was. -/
theorem eq_filter_depthOf (h' : Finished refs root bound w') {α : Type} {name : α → TypeName}
    {n : Nat} {xs later : List α} (hxs : ∀ a ∈ xs, ∃ k, (name a, k) ∈ w'.depths ∧ k ≤ n)
    (hlater : ∀ a ∈ later, ∃ k, (name a, k) ∈ w'.depths ∧ n < k) :
    xs = (xs ++ later).filter fun a =>
      decide ((w'.exploration root bound).depthOf (name a) ≤ n) := by
  apply (filter_append_eq_left _ _).symm
  · intro a ha
    obtain ⟨k, hk, hle⟩ := hxs a ha
    rw [h'.depthOf_eq hk]
    exact decide_eq_true hle
  · intro a ha hle
    obtain ⟨k, hk, hbeyond⟩ := hlater a ha
    rw [h'.depthOf_eq hk] at hle
    exact absurd (of_decide_eq_true hle) (Nat.not_le_of_lt hbeyond)

/-- What the walk with the smaller bound records is a truncation of what the other one does. -/
theorem isTruncation (h : Finished refs root (.upTo d) w) (h' : Finished refs root bound w')
    (hgoes : GoesBeyond d w w') (hdeep : ∀ k ≤ d, bound.admits k = true) :
    (w.exploration root (.upTo d)).IsTruncation d (w'.exploration root bound) := by
  obtain ⟨laterDepths, hdepths, hlaterDepths⟩ := hgoes.depths
  obtain ⟨laterParents, hparents, hlaterParents⟩ := hgoes.parents
  obtain ⟨laterAdjacency, hadjacency, hlaterAdjacency⟩ := hgoes.adjacency
  refine
    { depths_prefix := ⟨laterDepths, hdepths.symm⟩, depths := ?depths
      parents_prefix := ⟨laterParents, hparents.symm⟩, parents := ?parents
      adjacency_prefix := ⟨laterAdjacency, hadjacency.symm⟩, adjacency := ?adjacency
      unresolved := ?unresolved, entries := ?entries, types := ?types }
  case depths =>
    show w.depths = w'.depths.filter _
    rw [hdepths]
    apply (filter_append_eq_left _ _).symm
    · exact fun e he => decide_eq_true (h.depth_le he)
    · exact fun e he hle => absurd (of_decide_eq_true hle) (Nat.not_le_of_lt (hlaterDepths e he))
  case parents =>
    show w.parents = w'.parents.filter _
    rw [hparents]
    apply h'.eq_filter_depthOf _ hlaterParents
    intro e he
    obtain ⟨k, -, -, -, hdepth, -⟩ := h.parent e.1 e.2 he
    exact ⟨k + 1, hgoes.mem_depths hdepth, h.depth_le hdepth⟩
  case adjacency =>
    show w.adjacency = w'.adjacency.filter _
    rw [hadjacency]
    apply h'.eq_filter_depthOf _ hlaterAdjacency
    -- only types within the bound have been expanded
    intro a ha
    obtain ⟨k, hdepth, hk, -⟩ := h.mem_adjacency_iff.1 ha
    exact ⟨k, hgoes.mem_depths hdepth, of_decide_eq_true hk⟩
  case unresolved =>
    intro t
    apply (mem_unresolved_iff_of_goesBeyond h h' hgoes hdeep).trans
    apply and_congr_right
    intro ht
    obtain ⟨k, hk, -⟩ := (h'.given_up t).1 ht
    rw [h'.depthOf_eq hk]
    exact h'.exists_depth_and_iff hk (P := fun k => k ≤ d)
  case entries =>
    apply entriesUnder_eq_map_cutBelow h h' hgoes hdeep (Nat.zero_add d) h.root_mem_depths
    · intro e he
      rw [Nat.zero_add]
      exact h.depth_le_length_parents he
    · intro e he
      rw [Nat.zero_add]
      exact h'.depth_le_length_parents he
  case types =>
    intro t ht
    obtain ⟨e, he, rfl⟩ := List.mem_map.1 (h.mem_parents_iff_reachable.2 ht)
    apply h'.mem_parents_iff_reachable.1
    rw [hparents]
    exact List.mem_map_of_mem (List.mem_append_left _ he)

end Orderly

end Walk

/-! ## §4 Explorations over an index -/

/-- An exploration from `root` to the depth `d` finds `e`, in every session that steps lead to, and
    what is asked about the closure of `root` at that depth is answered from it. -/
def Context.Finds (ctx : Context Unit) (root : TypeName) (d : Int) (e : Exploration) : Prop :=
  ∀ s, ctx.Reached s → ((ctx.explore root d).run s).1 = .ok e ∧
    ∀ depth, ctx.depthOr depth = d →
      ((ctx.closure root depth).run s).1 = .ok e.types ∧
      ((ctx.closureTree root depth).run s).1 = .ok (.ofExploration e)

namespace TypeIndex

variable {x : TypeIndex} {blind : List TypeName} {config : Config}

/-- An exploration from a type that can be described finds the record of the walk from it. -/
theorem finds_record {root : TypeName} (hroot : x.Describes blind root) {d : Int} {b : Bound}
    (hb : Bound.ofInt? d = some b) :
    (x.context blind config).Finds root d
      (((x.context blind config).record root b).exploration root b) := by
  intro s hs
  obtain ⟨s', hrun, -⟩ := exists_run_explore hs hroot hb
  refine ⟨by rw [hrun], ?_⟩
  intro depth hdepth
  unfold Context.closure Context.closureTree
  rw [hdepth, Asking.run_bind_of_ok hrun, Asking.run_bind_of_ok hrun]
  exact ⟨rfl, rfl⟩

/-- A bounded exploration from a type that can be described is a truncation of every deeper one, and
    of the unbounded one. -/
theorem explore_truncates (x : TypeIndex) (blind : List TypeName) (config : Config)
    {root : TypeName} (hroot : x.Describes blind root) (d : Nat) :
    ∃ e, (x.context blind config).Finds root d e ∧
      ∀ d' : Int, (d : Int) ≤ d' ∨ d' = -1 →
        ∃ e', (x.context blind config).Finds root d' e' ∧ e.IsTruncation d e' := by
  have hctx := lawful_context x blind config
  refine ⟨_, finds_record hroot (b := .upTo d) rfl, ?_⟩
  intro d' hd'
  obtain ⟨b, hb⟩ := Bound.exists_ofInt?_eq_some (d := d') (by omega)
  refine ⟨_, finds_record hroot hb, ?_⟩
  have hdeep : ∀ k ≤ d, b.admits k = true := by
    intro k hk
    rw [Bound.admits_iff hb]
    omega
  exact Walk.Orderly.isTruncation (Context.finished_record hctx root _)
    (Context.finished_record hctx root b)
    ((Walk.orderly_start _ root _).goesBeyond_run hdeep _) hdeep

/-- The exploration from `A` to depth zero and the unbounded one. -/
theorem explore_truncates_ring :
    ∃ e, (ring.context ["C"] {}).Finds "A" 0 e ∧
      ∃ e', (ring.context ["C"] {}).Finds "A" (-1) e' ∧ e.IsTruncation 0 e' := by
  have hroot : ring.Describes ["C"] "A" := ⟨by decide, by decide⟩
  obtain ⟨e, he, hdeeper⟩ := explore_truncates ring ["C"] {} hroot 0
  exact ⟨e, he, hdeeper (-1) (.inr rfl)⟩

end TypeIndex

end TypeAtlas
