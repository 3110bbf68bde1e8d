import TypeAtlas.Proofs.Closure.Reachability

/-!
# The record of an exploration

Over an index, blind to some types or to none, an exploration from a type that can be described
records the shortest walks from it, and sorts the types that it found into three classes.
-/

namespace TypeAtlas

/-! ## §1 Records of shortest walks -/

/-- A type was found one reference beyond the depth. -/
def Exploration.IsCutOff (e : Exploration) (d : Int) (t : TypeName) : Prop :=
  0 ≤ d ∧ ∃ k : Nat, (k : Int) = d + 1 ∧ (t, k) ∈ e.depths

/-- Exactly one of three statements holds. -/
def ExactlyOne (a b c : Prop) : Prop := (a ∧ ¬ b ∧ ¬ c) ∨ (¬ a ∧ b ∧ ¬ c) ∨ (¬ a ∧ ¬ b ∧ c)

namespace ExactlyOne

variable {a b c : Prop}

theorem not_both (h : ExactlyOne a b c) : ¬ (a ∧ b) := by
  unfold ExactlyOne at h
  tauto

theorem neither_iff (h : ExactlyOne a b c) : ¬ a ∧ ¬ b ↔ c := by
  unfold ExactlyOne at h
  tauto

end ExactlyOne

/-- What does not depend on the number may be told first. -/
private theorem exists_and_right_comm {p q : Nat → Prop} {r : Prop} :
    (∃ k, p k ∧ q k ∧ r) ↔ r ∧ ∃ k, p k ∧ q k := by
  simp only [← and_assoc, exists_and_right]
  exact and_comm

/-- The tables of an exploration from `root` to the depth `d` record shortest walks over the given
    references. A type without any cannot be described. -/
structure Exploration.RecordsShortestWalks (refs : Refs) (root : TypeName) (d : Int)
    (e : Exploration) : Prop where
  /-- The types found are the root and those reached, each once. -/
  found : ∀ t, t ∈ e.depths.map Prod.fst ↔ t = root ∨ t ∈ e.types
  found_once : (e.depths.map Prod.fst).Nodup
  /-- The types found through another one are those reached, each once. -/
  found_through : ∀ t, t ∈ e.parents.map Prod.fst ↔ t ∈ e.types
  found_through_once : (e.parents.map Prod.fst).Nodup
  /-- The distance of a type is the length of the shortest walks to it. -/
  shortest : ∀ t k, (t, k) ∈ e.depths → refs.IsDistance root k t
  /-- A type is one reference further away than the one through which it was found, and that is
      the first one expanded that references it. -/
  parent : ∀ t p, (t, p) ∈ e.parents → ∃ k rs, (p, k) ∈ e.depths ∧ (t, k + 1) ∈ e.depths ∧
    t ∈ rs ∧ (e.adjacency.find? fun a => decide (t ∈ a.2)) = some (p, rs)
  /-- A type found is either expanded, or unresolved, or cut off. -/
  sorted : ∀ t, t ∈ e.depths.map Prod.fst →
    ExactlyOne (e.adjacency.expands t = true) (t ∈ e.unresolved) (e.IsCutOff d t)
  /-- The types expanded can be described and are within the depth, and what is recorded for them
      are their direct references, once. -/
  expanded : ∀ t rs, (t, rs) ∈ e.adjacency ↔
    refs t = some rs ∧ ∃ k : Nat, (t, k) ∈ e.depths ∧ (d = -1 ∨ (k : Int) ≤ d)
  expanded_once : (e.adjacency.map Prod.fst).Nodup
  /-- The types unresolved are within the depth, and cannot be described. -/
  unresolved : ∀ t, t ∈ e.unresolved ↔
    refs t = none ∧ ∃ k : Nat, (t, k) ∈ e.depths ∧ (d = -1 ∨ (k : Int) ≤ d)
  /-- Nearer types are expanded first. -/
  in_order : e.adjacency.Pairwise fun a b =>
    ∀ j k, (a.1, j) ∈ e.depths → (b.1, k) ∈ e.depths → j ≤ k

namespace Walk

namespace Orderly

variable {refs : Refs} {root : TypeName} {bound : Bound} {w : Walk}

/-! ## §2 The walk keeps such a record -/

/-- No type is found through two others. -/
theorem nodup_parents {done : List (TypeName × Nat)} (h : Orderly refs root bound done w) :
    (w.parents.map Prod.fst).Nodup := by
  obtain ⟨rest, hdepths, hparents⟩ := h.from_root
  have hdistinct := h.distinct
  rw [hdepths, List.map_cons] at hdistinct
  rw [hparents]
  exact (List.nodup_cons.1 hdistinct).2

/-- The types expanded stand in the order in which they were found. -/
theorem adjacency_sublist (h : Finished refs root bound w) :
    (w.adjacency.map Prod.fst).Sublist (w.depths.map Prod.fst) := by
  have key : ∀ done : List (TypeName × Nat),
      ((done.filterMap (expansion refs bound)).map Prod.fst).Sublist (done.map Prod.fst) := by
    intro done
    induction done with
    | nil => exact .slnil
    | cons e done ih =>
      cases he : expansion refs bound e with
      | none =>
        -- looked at and not expanded
        rw [List.filterMap_cons_none he]
        exact ih.cons _
      | some a =>
        obtain ⟨hfst, -⟩ := expansion_eq_some_iff.1 he
        rw [List.filterMap_cons_some he, List.map_cons, List.map_cons, ← hfst]
        exact ih.cons_cons _
  rw [h.expanded]
  exact key w.depths

/-- Nearer types are expanded first. -/
theorem adjacency_pairwise (h : Finished refs root bound w) :
    w.adjacency.Pairwise fun a b =>
      ∀ j k, (a.1, j) ∈ w.depths → (b.1, k) ∈ w.depths → j ≤ k := by
  rw [h.expanded]
  apply List.pairwise_filterMap.2
  apply h.sorted.imp_of_mem
  -- the distances of the types expanded are those at which they were found
  intro e f he hf hle a ha b hb j k hj hk
  obtain ⟨heq, -⟩ := expansion_eq_some_iff.1 ha
  obtain ⟨heq', -⟩ := expansion_eq_some_iff.1 hb
  rw [← heq] at hj
  rw [← heq'] at hk
  rwa [h.depth_unique hj he, h.depth_unique hk hf]

/-- A type found beyond the bound is one reference beyond it. -/
theorem admits_or_eq_succ (h : Finished refs root bound w) {d : Int}
    (hb : Bound.ofInt? d = some bound) {t : TypeName} {k : Nat} (hk : (t, k) ∈ w.depths) :
    bound.admits k = true ∨ (0 ≤ d ∧ (k : Int) = d + 1) := by
  have hd : ¬ d < -1 := by
    rw [← Bound.ofInt?_eq_none_iff, hb]
    nofun
  rw [Bound.admits_iff hb]
  cases k with
  | zero => omega
  | succ k =>
    -- the type before it on the way is within the bound
    have hbefore := (h.mem_depths_iff_isDistance.1 hk).2 k (Nat.lt_succ_self k)
    have hk' := (Bound.admits_iff hb).1 hbefore
    omega

/-- What holds at the distance of a type that has been found is a question of that distance. -/
theorem exists_depth_and_iff (h : Finished refs root bound w) {t : TypeName} {k : Nat}
    (hk : (t, k) ∈ w.depths) {P : Nat → Prop} : (∃ j, (t, j) ∈ w.depths ∧ P j) ↔ P k := by
  apply Iff.intro
  · intro hdepth
    obtain ⟨j, hj, hP⟩ := hdepth
    rwa [← h.depth_unique hj hk]
  · intro hP
    exact ⟨k, hk, hP⟩

/-- A type is cut off if its distance is one more than the depth. -/
theorem isCutOff_iff (h : Finished refs root bound w) {t : TypeName} {k : Nat}
    (hk : (t, k) ∈ w.depths) {d : Int} :
    (w.exploration root bound).IsCutOff d t ↔ 0 ≤ d ∧ (k : Int) = d + 1 := by
  apply and_congr_right
  intro _
  apply (exists_congr fun j => and_comm).trans
  exact h.exists_depth_and_iff hk (P := fun j => (j : Int) = d + 1)

/-- A type found is either expanded, or unresolved, or cut off. -/
theorem exactlyOne (h : Finished refs root bound w) {d : Int} (hb : Bound.ofInt? d = some bound)
    {t : TypeName} {k : Nat} (hk : (t, k) ∈ w.depths) :
    ExactlyOne (w.adjacency.expands t = true) (t ∈ w.unresolved)
      ((w.exploration root bound).IsCutOff d t) := by
  have hexpanded : w.adjacency.expands t = true ↔
      bound.admits k = true ∧ ∃ rs, refs t = some rs :=
    h.expands_iff.trans (h.exists_depth_and_iff hk)
  have hunresolved : t ∈ w.unresolved ↔ bound.admits k = true ∧ refs t = none :=
    (h.given_up t).trans (h.exists_depth_and_iff hk)
  have hadmits := Bound.admits_iff hb (k := k)
  rw [hexpanded, hunresolved, h.isCutOff_iff hk]
  unfold ExactlyOne
  rcases h.admits_or_eq_succ hb hk with hwithin | hbeyond
  · -- within the bound, where it is a question of whether the type can be described
    have hnot : ¬ (0 ≤ d ∧ (k : Int) = d + 1) := by
      have hk' := hadmits.1 hwithin
      omega
    cases hrefs : refs t with
    | some rs => exact .inl ⟨⟨hwithin, rs, rfl⟩, nofun, hnot⟩
    | none => exact .inr (.inl ⟨nofun, ⟨hwithin, rfl⟩, hnot⟩)
  · -- beyond the bound, where nothing is asked about it
    have hnot : ¬ bound.admits k = true := by
      rw [hadmits]
      omega
    exact .inr (.inr ⟨fun h' => hnot h'.1, fun h' => hnot h'.1, hbeyond⟩)

/-- A walk that has come to its end has recorded shortest walks. -/
theorem recordsShortestWalks (h : Finished refs root bound w) {d : Int}
    (hb : Bound.ofInt? d = some bound) :
    (w.exploration root bound).RecordsShortestWalks refs root d where
  found t := by
    apply Iff.trans _ h.mem_depths_iff_reachable
    simp [exploration]
  found_once := h.distinct
  found_through t := h.mem_parents_iff_reachable
  found_through_once := h.nodup_parents
  shortest t k hk := (h.mem_depths_iff_isDistance.1 hk).1
  parent t p hp := by
    obtain ⟨k, rs, hdone, -, hdepth, hfind⟩ := h.parent t p hp
    exact ⟨k, rs, hdone, hdepth, by simpa using List.find?_some hfind, hfind⟩
  sorted t ht := by
    obtain ⟨⟨_, k⟩, hk, rfl⟩ := List.mem_map.1 ht
    exact h.exactlyOne hb hk
  expanded t rs := by
    apply h.mem_adjacency_iff.trans
    simp only [Bound.admits_iff hb]
    exact exists_and_right_comm
  expanded_once := h.distinct.sublist h.adjacency_sublist
  unresolved t := by
    apply (h.given_up t).trans
    simp only [Bound.admits_iff hb]
    exact exists_and_right_comm
  in_order := h.adjacency_pairwise

end Orderly

end Walk

/-! ## §3 Explorations over an index -/

namespace TypeIndex

/-- In every session that steps lead to, an exploration from a type that can be described records
    shortest walks over the direct references: those that the session tells when asked, which
    exactly the types that can be described have. -/
theorem explore_records_shortest_walks (x : TypeIndex) (blind : List TypeName) (config : Config)
    {s : Session Unit} (hs : (x.context blind config).Reached s) {root : TypeName}
    (hroot : x.Describes blind root) {d : Int} (hd : -1 ≤ d) :
    ∃ e s', ((x.context blind config).explore root d).run s = (.ok e, s') ∧
      e.RecordsShortestWalks (x.context blind config).refs root d ∧
      (∀ t rs, (x.context blind config).refs t = some rs ↔
        (((x.context blind config).directReferences t).run s).1 = .ok rs) ∧
      ∀ t, (x.context blind config).refs t = none ↔ ¬ x.Describes blind t := by
  obtain ⟨b, hb⟩ := Bound.exists_ofInt?_eq_some hd
  obtain ⟨s', hrun, -⟩ := exists_run_explore hs hroot hb
  have hfinished := Context.finished_record (lawful_context x blind config) root b
  refine ⟨_, s', hrun, hfinished.recordsShortestWalks hb, ?_, ?_⟩
  · exact fun t rs => refs_eq_some_iff_run hs
  · exact fun t => refs_context_eq_none_iff

theorem explore_records_shortest_walks_ring :
    ∃ e s', ((ring.context ["C"] {}).explore "A" 0).run Session.fresh = (.ok e, s') ∧
      e.RecordsShortestWalks (ring.context ["C"] {}).refs "A" 0 ∧ "A" ∈ e.depths.map Prod.fst := by
  have hroot : ring.Describes ["C"] "A" := ⟨by decide, by decide⟩
  obtain ⟨e, s', hrun, hrecords, -⟩ :=
    explore_records_shortest_walks ring ["C"] {} ⟨[], rfl⟩ hroot (d := 0) (by decide)
  exact ⟨e, s', hrun, hrecords, (hrecords.found "A").2 (.inl rfl)⟩

end TypeIndex

end TypeAtlas
