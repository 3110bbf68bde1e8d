import TypeAtlas.Proofs.Closure.Reachability

/-!
# What an exploration does to a session

Over an index, blind to some types or to none, an exploration from a type that can be described
finds out the same in every session, and adds the same to it: the types that it expanded to the
cache, and their edges to the graph.
-/

namespace TypeAtlas

namespace Context

variable {ctx : Context Unit} {s s' : Session Unit}

/-! ## §1 Gains of explorations -/

/-- The types cached after an exploration are those cached before and those expanded. -/
theorem Gained.contains_iff {x : Exploration} {transitive : Bool}
    (h : ctx.Gained (x.gain transitive) s s')
    (hknown : ∀ t, x.adjacency.expands t = true → ∃ rs, ctx.refs t = some rs) (t : TypeName) :
    s'.descriptors.contains t = true ↔
      s.descriptors.contains t = true ∨ x.adjacency.expands t = true := by
  unfold OrdMap.contains
  rw [Option.isSome_iff_exists, Option.isSome_iff_exists]
  simp only [h.descriptors]
  rw [exists_or]
  apply or_congr_right
  apply Iff.intro
  · intro hlearned
    obtain ⟨rs, hexpands, -⟩ := hlearned
    exact hexpands
  · intro hexpands
    -- an expanded type has references to cache
    obtain ⟨rs, hrs⟩ := hknown t hexpands
    exact ⟨rs, hexpands, hrs⟩

/-- The edges after an exploration are those before, the direct references of the types expanded,
    and what these reach among each other if the settings ask for it. -/
theorem Gained.mem_edges_iff {x : Exploration} {transitive : Bool}
    (h : ctx.Gained (x.gain transitive) s s') (a : Edge) :
    a ∈ s'.graph.edges ↔
      a ∈ s.graph.edges ∨
      (x.adjacency.expands a.source = true ∧ ctx.refs.Leads a.source a.target) ∨
      (transitive = true ∧ x.adjacency.expands a.source = true ∧ a.target ≠ a.source ∧
        ∃ n, 1 ≤ n ∧ x.adjacency.refs.ReachesIn a.source n a.target) := by
  -- what a type reaches over the record, by walks of at least one reference
  have hwalk : a.target ∈ reachable x.adjacency a.source ↔ a.target ≠ a.source ∧
      ∃ n, 1 ≤ n ∧ x.adjacency.refs.ReachesIn a.source n a.target := by
    rw [mem_reachable_iff, Refs.exists_one_le_and_iff]
  rw [h.edges, ← hwalk]
  apply or_congr_right
  exact or_comm

theorem Gained.roots_eq {x : Exploration} {transitive : Bool}
    (h : ctx.Gained (x.gain transitive) s s') : s'.graph.roots = s.graph.roots :=
  OrdSet.ext fun t => (h.roots t).trans (or_iff_left fun hmem => hmem)

end Context

/-! ## §2 Explorations over an index -/

namespace TypeIndex

/-- Whatever a session knows, an exploration from a type that can be described finds out the same,
    and this alone says what it adds: the types that it expanded are cached, neither those beyond
    the depth nor those that cannot be described; the roots stay; and the graph has the direct
    references of the types expanded and, if the settings ask for it, what these reach by walks
    among each other. -/
theorem explore_effect (x : TypeIndex) (blind : List TypeName) (config : Config) {root : TypeName}
    (hroot : x.Describes blind root) {d : Int} (hd : -1 ≤ d) :
    ∃ e : Exploration,
      (∀ t, t ∈ e.unresolved ∨ (0 ≤ d ∧ ∃ k : Nat, (k : Int) = d + 1 ∧ (t, k) ∈ e.depths) →
        e.adjacency.expands t = false) ∧
      ∀ s, (x.context blind config).Reached s →
        ∃ s', ((x.context blind config).explore root d).run s = (.ok e, s') ∧
          (∀ t, s'.descriptors.contains t = true ↔
            s.descriptors.contains t = true ∨ e.adjacency.expands t = true) ∧
          s'.graph.roots = s.graph.roots ∧
          ∀ a, a ∈ s'.graph.edges ↔
            a ∈ s.graph.edges ∨
            (e.adjacency.expands a.source = true ∧
              (x.context blind config).refs.Leads a.source a.target) ∨
            (config.transitiveEdges = true ∧ e.adjacency.expands a.source = true ∧
              a.target ≠ a.source ∧
              ∃ n, 1 ≤ n ∧ e.adjacency.refs.ReachesIn a.source n a.target) := by
  obtain ⟨b, hb⟩ := Bound.exists_ofInt?_eq_some hd
  have hfinished := Context.finished_record (lawful_context x blind config) root b
  refine ⟨((x.context blind config).record root b).exploration root b, ?_, ?_⟩
  · -- what is expanded is neither unresolved nor cut off
    intro t ht
    rw [← Bool.not_eq_true]
    intro hexpands
    obtain ⟨k, hk, hadmits, rs, hrs⟩ := hfinished.expands_iff.1 hexpands
    rcases ht with hunresolved | ⟨hd', j, hj, hdepth⟩
    · obtain ⟨_, -, -, hnone⟩ := (hfinished.given_up t).1 hunresolved
      rw [hrs] at hnone
      cases hnone
    · have hjk := hfinished.depth_unique hdepth hk
      have hwithin := (Bound.admits_iff hb).1 hadmits
      omega
  · intro s hs
    obtain ⟨s', hrun, hgain⟩ := exists_run_explore hs hroot hb
    refine ⟨s', hrun, hgain.contains_iff ?_, hgain.roots_eq, hgain.mem_edges_iff⟩
    intro t ht
    exact (hfinished.expands_iff_exists_walk.1 ht).1

/-- Exploring from `A` in a new session and after the references of `B` have been asked for. -/
theorem explore_effect_ring :
    ∃ e s₁ s₂,
      ((ring.context ["C"] {}).explore "A" 1).run Session.fresh = (.ok e, s₁) ∧
      ((ring.context ["C"] {}).explore "A" 1).run
        ((ring.context ["C"] {}).after Session.fresh [.direct "B"]) = (.ok e, s₂) ∧
      s₁.graph.roots = ∅ ∧
      ∀ a, a ∈ s₂.graph.edges ↔
        a ∈ ((ring.context ["C"] {}).after Session.fresh [.direct "B"]).graph.edges ∨
        (e.adjacency.expands a.source = true ∧
          (ring.context ["C"] {}).refs.Leads a.source a.target) ∨
        (({} : Config).transitiveEdges = true ∧ e.adjacency.expands a.source = true ∧
          a.target ≠ a.source ∧ ∃ n, 1 ≤ n ∧ e.adjacency.refs.ReachesIn a.source n a.target) := by
  have hroot : ring.Describes ["C"] "A" := ⟨by decide, by decide⟩
  obtain ⟨e, -, heffect⟩ := explore_effect ring ["C"] {} hroot (d := 1) (by decide)
  obtain ⟨s₁, hrun₁, -, hroots, -⟩ := heffect Session.fresh ⟨[], rfl⟩
  obtain ⟨s₂, hrun₂, -, -, hedges⟩ := heffect _ ⟨[.direct "B"], rfl⟩
  exact ⟨e, s₁, s₂, hrun₁, hrun₂, hroots, hedges⟩

end TypeIndex

end TypeAtlas
