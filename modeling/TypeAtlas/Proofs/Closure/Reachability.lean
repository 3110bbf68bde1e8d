import TypeAtlas.Proofs.Session.Index
import TypeAtlas.Proofs.Session.Steps

/-!
# Closures and reachability

Over an index, blind to some types or to none, the closure of a type that can be described is the
set of the other types that walks of bounded length lead to.
-/

namespace TypeAtlas

namespace TypeIndex

variable {x : TypeIndex} {blind : List TypeName} {config : Config}

/-- In a session that steps lead to, an exploration from a type that can be described comes to the
    record of a walk, and leaves the session with what the record says. -/
theorem exists_run_explore {s : Session Unit} (hs : (x.context blind config).Reached s)
    {root : TypeName} (hroot : x.Describes blind root) {d : Int} {b : Bound}
    (hb : Bound.ofInt? d = some b) :
    ∃ s', ((x.context blind config).explore root d).run s =
        (.ok (((x.context blind config).record root b).exploration root b), s') ∧
      (x.context blind config).Gained
        ((((x.context blind config).record root b).exploration root b).gain config.transitiveEdges)
        s s' := by
  have hctx := lawful_context x blind config
  have hyields := Context.yields_explore hctx (exists_refs_context_iff.2 hroot) hb
  exact hyields.exists_run (hs.coherent hctx)

/-- In a session that steps lead to, the closure of a type that can be described is found. It holds
    the other types that walks lead to whose type before the last one is within the depth. -/
theorem exists_run_closure {s : Session Unit} (hs : (x.context blind config).Reached s)
    {root : TypeName} (hroot : x.Describes blind root) {d : Int} (hd : -1 ≤ d) :
    ∃ ts s', ((x.context blind config).closure root (some d)).run s = (.ok ts, s') ∧
      ∀ t, t ∈ ts ↔ t ≠ root ∧ ∃ n : Nat, (d = -1 ∨ (n : Int) ≤ d) ∧
        (x.context blind config).refs.ReachesIn root (n + 1) t := by
  obtain ⟨b, hb⟩ := Bound.exists_ofInt?_eq_some hd
  obtain ⟨s', hrun, -⟩ := exists_run_explore hs hroot hb
  have hfinished := Context.finished_record (lawful_context x blind config) root b
  refine ⟨_, s', Asking.run_bind_of_ok hrun, ?_⟩
  intro t
  apply hfinished.mem_reachable_root_iff.trans
  simp only [Bound.admits_iff hb]

/-- In a session that steps lead to, asking for the direct references of a type gives those that
    the provider fixes. -/
theorem refs_eq_some_iff_run {s : Session Unit} (hs : (x.context blind config).Reached s)
    {t : TypeName} {rs : NameSet} :
    (x.context blind config).refs t = some rs ↔
      (((x.context blind config).directReferences t).run s).1 = .ok rs :=
  Context.refs_eq_some_iff_run (lawful_context x blind config)
    (hs.coherent (lawful_context x blind config))

/-- The closure of a type that can be described holds exactly the other types that walks lead to:
    walks of any length if the depth is minus one, and else those that are at most one reference
    longer than the depth. What it holds is expanded, or a leaf that cannot be described or is out
    of reach of the depth. -/
theorem closure_is_bounded_reachability (x : TypeIndex) (blind : List TypeName) (config : Config)
    {s : Session Unit} (hs : (x.context blind config).Reached s) {root : TypeName}
    (hroot : x.Describes blind root) {d : Int} (hd : -1 ≤ d) :
    ∃ e s', ((x.context blind config).explore root d).run s = (.ok e, s') ∧
      (∀ depth, (x.context blind config).depthOr depth = d →
        ((x.context blind config).closure root depth).run s = (.ok e.types, s')) ∧
      (∀ t, t ∈ e.types ↔ t ≠ root ∧ ∃ n : Nat, 1 ≤ n ∧ (d = -1 ∨ (n : Int) ≤ d + 1) ∧
        (x.context blind config).refs.ReachesIn root n t) ∧
      root ∉ e.types ∧
      ∀ t, e.adjacency.expands t = true ↔ x.Describes blind t ∧
        ∃ n : Nat, (d = -1 ∨ (n : Int) ≤ d) ∧ (x.context blind config).refs.ReachesIn root n t := by
  obtain ⟨b, hb⟩ := Bound.exists_ofInt?_eq_some hd
  obtain ⟨s', hrun, -⟩ := exists_run_explore hs hroot hb
  have hfinished := Context.finished_record (lawful_context x blind config) root b
  refine ⟨_, s', hrun, ?_, ?_, ?_, ?_⟩
  · -- the closure is the set of types of the exploration
    intro depth hdepth
    unfold Context.closure
    rw [hdepth, Asking.run_bind_of_ok hrun]
    rfl
  · -- the bound admits the type before the last one of a walk
    intro t
    apply hfinished.mem_reachable_root_iff.trans
    rw [Refs.exists_one_le_and_iff]
    apply and_congr_right
    intro _
    apply exists_congr
    intro n
    rw [Bound.admits_iff hb, Int.natCast_add, Int.natCast_one, Int.add_le_add_iff_right]
  · intro hmem
    exact (hfinished.mem_reachable_root_iff.1 hmem).1 rfl
  · intro t
    apply hfinished.expands_iff_exists_walk.trans
    rw [exists_refs_context_iff]
    simp only [Bound.admits_iff hb]

theorem closure_is_bounded_reachability_ring :
    ∃ e s', ((ring.context ["C"] {}).explore "A" 1).run Session.fresh = (.ok e, s') ∧
      "C" ∈ e.types ∧ "A" ∉ e.types ∧ e.adjacency.expands "C" = false := by
  have hroot : ring.Describes ["C"] "A" := ⟨by decide, by decide⟩
  have hblind : ¬ ring.Describes ["C"] "C" := fun h => h.2 (by decide)
  obtain ⟨e, s', hrun, -, htypes, hself, hexpands⟩ :=
    closure_is_bounded_reachability ring ["C"] {} ⟨[], rfl⟩ hroot (d := 1) (by decide)
  have hAB : (ring.context ["C"] {}).refs.Leads "A" "B" := ⟨_, rfl, by decide⟩
  have hBC : (ring.context ["C"] {}).refs.Leads "B" "C" := ⟨_, rfl, by decide⟩
  refine ⟨e, s', hrun, (htypes "C").2 ⟨by decide, 2, by decide, by decide, ?_⟩, hself, ?_⟩
  · exact (Refs.ReachesIn.refl.tail hAB).tail hBC
  · rw [← Bool.not_eq_true, hexpands]
    exact fun h => hblind h.1

end TypeIndex

end TypeAtlas
