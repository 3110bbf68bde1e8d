import TypeAtlas.Proofs.Graph.Readings
import TypeAtlas.Proofs.Session.Index
import TypeAtlas.Proofs.Session.Invariant
import TypeAtlas.Proofs.Session.Steps

/-!
# Graph and cache

As long as no edge is recorded by hand, the dependency graph says nothing that the cached references
do not: every edge is a walk over them, and every cached reference is an edge. Without transitive
edges the graph is the cache read backwards.

Main statements: `Context.invariant_grounded` and `TypeIndex.graph_agrees_with_cache`.
-/

namespace TypeAtlas

/-! ## §1 Edges that known references explain -/

/-- The direct references that a session has cached. -/
def Session.cached (s : Session Unit) : Refs := fun t => s.descriptors.get? t

namespace Refs

variable {refs refs' : Refs} {start t : TypeName} {n : Nat}

/-- Known references explain an edge: they lead from its source to its target, which is another
    type, and by one reference if only direct references count. -/
def Explains (refs : Refs) (transitive : Bool) (e : Edge) : Prop :=
  e.target ≠ e.source ∧
    ∃ n, refs.ReachesIn e.source (n + 1) e.target ∧ (transitive = false → n = 0)

theorem Explains.mono {transitive : Bool} {e : Edge}
    (hle : ∀ u rs, refs u = some rs → refs' u = some rs) (h : refs.Explains transitive e) :
    refs'.Explains transitive e := by
  obtain ⟨hne, n, hreach, hdirect⟩ := h
  exact ⟨hne, n, hreach.mono hle, hdirect⟩

/-- A direct reference explains its edge. -/
theorem Leads.explains {transitive : Bool} {e : Edge} (h : refs.Leads e.source e.target)
    (hne : e.target ≠ e.source) : refs.Explains transitive e :=
  ⟨hne, 0, ReachesIn.refl.tail h, fun _ => rfl⟩

/-- Where only direct references count, an explained edge is one. -/
theorem Explains.leads {e : Edge} (h : refs.Explains false e) : refs.Leads e.source e.target := by
  obtain ⟨-, n, hreach, hdirect⟩ := h
  cases hdirect rfl
  obtain ⟨u, hu, hlead⟩ := hreach.exists_last
  cases hu
  exact hlead

end Refs

namespace Context

variable {ctx : Context Unit} {g : Gain} {s s' : Session Unit}

/-- Cache and graph of a session agree with the provider, and the cached references explain every
    edge of the graph. -/
structure Grounded (ctx : Context Unit) (s : Session Unit) : Prop where
  coherent : ctx.Coherent s
  explained : ∀ e ∈ s.graph.edges, s.cached.Explains ctx.config.transitiveEdges e

theorem grounded_fresh : ctx.Grounded Session.fresh where
  coherent := coherent_fresh
  explained e he := absurd he (OrdSet.not_mem_empty e)

/-! ## §2 Sessions stay grounded -/

/-- What is learned is cached. -/
theorem Gained.cached_of_learned (hg : ctx.Gained g s s') {t : TypeName} {rs : NameSet}
    (ht : t ∈ g.learned) (hrs : ctx.refs t = some rs) : s'.cached t = some rs :=
  (hg.descriptors t rs).2 (.inr ⟨ht, hrs⟩)

/-- A grounded session that gains stays grounded, if what is cached afterwards explains the edges
    drawn besides direct references. -/
theorem Grounded.of_gained (hs : ctx.Grounded s) (hg : ctx.Gained g s s')
    (hedges : ∀ e ∈ g.edges, s'.cached.Explains ctx.config.transitiveEdges e) :
    ctx.Grounded s' where
  coherent := hg.coherent hs.coherent
  explained e he := by
    rcases (hg.edges e).1 he with hold | hdrawn | ⟨hlearned, hlead⟩
    · -- an edge from before: nothing that was cached is lost
      exact (hs.explained e hold).mono fun u rs hrs => (hg.descriptors u rs).2 (.inl hrs)
    · exact hedges e hdrawn
    · -- a direct reference of a type learned now
      have hne := ne_of_leads hlead
      obtain ⟨rs, hrs, ht⟩ := hlead
      exact Refs.Leads.explains ⟨rs, hg.cached_of_learned hlearned hrs, ht⟩ hne

/-- What is cached after an exploration explains the edges drawn by it. -/
theorem explains_of_mem_gain (hctx : ctx.Lawful) {root : TypeName} {bound : Bound}
    (hg : ctx.Gained
      (((ctx.record root bound).exploration root bound).gain ctx.config.transitiveEdges) s s')
    {e : Edge}
    (he : e ∈ (((ctx.record root bound).exploration root bound).gain
      ctx.config.transitiveEdges).edges) :
    s'.cached.Explains ctx.config.transitiveEdges e := by
  have hfinished := finished_record hctx root bound
  obtain ⟨htransitive, -, hreached⟩ := he
  obtain ⟨hne, n, hreach⟩ := mem_reachable_iff.1 hreached
  refine ⟨hne, n, hreach.mono ?_, ?_⟩
  · -- what the walk recorded has been cached by it
    intro u rs hrs
    obtain ⟨-, -, -, hknown⟩ := hfinished.refs_adjacency_iff.1 hrs
    exact hg.cached_of_learned (Adjacency.expands_iff.2 ⟨rs, hrs⟩) hknown
  · intro hdirect
    rw [hdirect] at htransitive
    cases htransitive

/-- Direct references, explorations and roots keep a session grounded. -/
theorem invariant_grounded (hctx : ctx.Lawful) : ctx.Invariant ctx.Grounded := by
  apply invariant_iff.2
  refine invariantOn_of_gains hctx (fun _ hs => hs.coherent) ?_ fun _ _ _ _ => trivial
  intro g s s' hoffers hg hs
  apply hs.of_gained hg
  intro e he
  cases hoffers with
  | exploring bound _ => exact explains_of_mem_gain hctx hg he
  -- no other question draws edges besides direct references
  | nothing => exact he.elim
  | learning _ => exact he.elim
  | rooting _ => exact he.elim

end Context

/-! ## §3 Sessions over an index -/

namespace TypeIndex

/-- After any steps that record no edges by themselves, some of which may fail, the referrers of a
    type are other types, described and cached, from which the cached references lead to it, and
    the cached references of a type have it as a referrer. Without transitive edges the referrers
    of a type are exactly the types that have it among their cached references. -/
theorem graph_agrees_with_cache (x : TypeIndex) (blind : List TypeName) (config : Config)
    {steps : List Step} (hsteps : ∀ step ∈ steps, step.recordsEdges = false) {s : Session Unit}
    (hs : s = (x.context blind config).after Session.fresh steps) :
    (∀ k v, v ∈ s.graph.referrers k →
      s.descriptors.contains v = true ∧ x.Describes blind v ∧ v ≠ k ∧
        ∃ n, 1 ≤ n ∧ s.cached.ReachesIn v n k) ∧
    (∀ v rs, s.descriptors.get? v = some rs → ∀ k ∈ rs, v ∈ s.graph.referrers k) ∧
    (config.transitiveEdges = false → ∀ k v,
      v ∈ s.graph.referrers k ↔ ∃ rs, s.descriptors.get? v = some rs ∧ k ∈ rs) := by
  have hctx := lawful_context x blind config
  have hgrounded : (x.context blind config).Grounded s := by
    rw [hs]
    exact (Context.invariant_grounded hctx).after hsteps Context.grounded_fresh
  have hdrawn : ∀ v rs, s.descriptors.get? v = some rs → ∀ k ∈ rs, v ∈ s.graph.referrers k := by
    intro v rs hrs k hk
    exact Graph.mem_referrers_iff.2 (hgrounded.coherent.drawn v rs hrs k hk)
  refine ⟨?_, hdrawn, ?_⟩
  · intro k v hv
    obtain ⟨hne, n, hreach, -⟩ := hgrounded.explained _ (Graph.mem_referrers_iff.1 hv)
    obtain ⟨rs, hrs⟩ := hreach.exists_refs_start
    have hdescribed : x.Describes blind v :=
      exists_refs_context_iff.1 ⟨rs, hgrounded.coherent.known v rs hrs⟩
    exact ⟨Option.isSome_iff_exists.2 ⟨rs, hrs⟩, hdescribed, hne.symm, n + 1, by omega, hreach⟩
  · intro hdirect k v
    apply Iff.intro
    · intro hv
      have hexplained := hgrounded.explained _ (Graph.mem_referrers_iff.1 hv)
      have hconfig : (x.context blind config).config.transitiveEdges = false := hdirect
      rw [hconfig] at hexplained
      exact hexplained.leads
    · intro hcached
      obtain ⟨rs, hrs, hk⟩ := hcached
      exact hdrawn v rs hrs k hk

/-- After a step that fails and an exploration beyond the direct references of its root. -/
theorem graph_agrees_with_cache_ring :
    (∀ step ∈ [Step.direct "C", .explore "A" none], step.recordsEdges = false) ∧
      "A" ∈ ((ring.context ["C"] {}).after Session.fresh
        [.direct "C", .explore "A" none]).graph.referrers "C" ∧
      ∃ n, 1 ≤ n ∧ ((ring.context ["C"] {}).after Session.fresh
        [.direct "C", .explore "A" none]).cached.ReachesIn "A" n "C" := by
  have hsteps : ∀ step ∈ [Step.direct "C", .explore "A" none], step.recordsEdges = false := by
    decide
  obtain ⟨hexplained, -, -⟩ := graph_agrees_with_cache ring ["C"] {} hsteps rfl
  have hedge : "A" ∈ ((ring.context ["C"] {}).after Session.fresh
      [.direct "C", .explore "A" none]).graph.referrers "C" := by
    decide +kernel
  exact ⟨hsteps, hedge, (hexplained "C" "A" hedge).2.2.2⟩

end TypeIndex

end TypeAtlas
