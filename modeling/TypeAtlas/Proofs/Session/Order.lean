import TypeAtlas.Proofs.Session.Index
import TypeAtlas.Proofs.Session.Steps

/-!
# The order of steps

What a sequence of steps leaves behind is its start and the gains of its steps together, so neither
the order of the steps nor their repetition matters.
-/

namespace TypeAtlas

/-! ## §1 Sequences of steps -/

namespace Context

variable {ctx : Context Unit} {s : Session Unit}

/-- A sequence of steps adds the gains of its steps. -/
theorem gained_after {gain : Step → Gain} (hgain : ∀ step, ctx.Adds (ctx.answer step) (gain step))
    (hs : ctx.Coherent s) (steps : List Step) :
    ctx.Gained (.all gain steps) s (ctx.after s steps) := by
  induction steps generalizing s with
  | nil =>
    rw [Gain.all_nil]
    exact .of_eq rfl rfl
  | cons step steps ih =>
    -- the session that the first step leaves is coherent, so the others add their gains to it
    rw [Gain.all_cons]
    have hfirst : ctx.Gained (gain step) s (ctx.step s step).2 := hgain step s hs
    exact hfirst.trans (ih (hfirst.coherent hs))

/-- Sequences of the same steps lead to the same cache and the same graph. -/
theorem after_congr (hctx : ctx.Lawful) (hs : ctx.Coherent s) {steps steps' : List Step}
    (hsame : ∀ step, step ∈ steps ↔ step ∈ steps') :
    (ctx.after s steps).descriptors = (ctx.after s steps').descriptors ∧
      (ctx.after s steps).graph = (ctx.after s steps').graph := by
  -- one gain for each step, the same in both sequences
  choose gain hgain using fun step => (steady_answer hctx step : ctx.Steady (ctx.answer step))
  have hadds : ∀ step, ctx.Adds (ctx.answer step) (gain step) := fun step => (hgain step).1
  have hgained := gained_after hadds hs steps
  have hgained' := gained_after hadds hs steps'
  rw [← Gain.all_congr gain hsame] at hgained'
  exact hgained.unique hgained'

/-- A step that fails on a type that it does not resolve leaves cache and graph as they are. -/
theorem step_of_unresolved (hctx : ctx.Lawful) (hs : ctx.Coherent s) {step : Step} {n : TypeName}
    (hfail : (ctx.step s step).1 = .error (.unresolved n)) :
    (ctx.step s step).2.descriptors = s.descriptors ∧ (ctx.step s step).2.graph = s.graph := by
  obtain ⟨g, hadds, hnone⟩ := steady_answer hctx step
  have hgained := hadds s hs
  rw [hnone s hs ⟨n, hfail⟩] at hgained
  exact hgained.eq_of_empty

end Context

/-! ## §2 Sessions over an index -/

namespace TypeIndex

/-- From a session that steps lead to, sequences of the same steps, in whatever order and however
    often each, lead to the same cached references, the same edges and roots, and the same tables.
    A step that fails on a type that it does not resolve changes none of them. -/
theorem after_order_independent (x : TypeIndex) (blind : List TypeName) (config : Config)
    {s : Session Unit} (hs : (x.context blind config).Reached s) :
    (∀ steps steps' : List Step, (∀ step, step ∈ steps ↔ step ∈ steps') →
      ((x.context blind config).after s steps).descriptors =
        ((x.context blind config).after s steps').descriptors ∧
      ((x.context blind config).after s steps).graph.edges =
        ((x.context blind config).after s steps').graph.edges ∧
      ((x.context blind config).after s steps).graph.roots =
        ((x.context blind config).after s steps').graph.roots ∧
      ((x.context blind config).after s steps).graph.nodeRows =
        ((x.context blind config).after s steps').graph.nodeRows ∧
      ((x.context blind config).after s steps).graph.edgeRows =
        ((x.context blind config).after s steps').graph.edgeRows) ∧
    ∀ step n, ((x.context blind config).step s step).1 = .error (.unresolved n) →
      ((x.context blind config).step s step).2.descriptors = s.descriptors ∧
        ((x.context blind config).step s step).2.graph = s.graph := by
  have hctx := lawful_context x blind config
  have hcoherent := hs.coherent hctx
  apply And.intro
  · intro steps steps' hsame
    obtain ⟨hdescriptors, hgraph⟩ := Context.after_congr hctx hcoherent hsame
    rw [hgraph]
    exact ⟨hdescriptors, rfl, rfl, rfl, rfl⟩
  · intro step n hfail
    exact Context.step_of_unresolved hctx hcoherent hfail

theorem after_order_independent_ring :
    ((ring.context ["C"] {}).after Session.fresh
        [.explore "A" (some 0), .analyze ["B"] none, .direct "C"]).graph.edgeRows =
      ((ring.context ["C"] {}).after Session.fresh
        [.direct "C", .analyze ["B"] none, .direct "C", .explore "A" (some 0)]).graph.edgeRows := by
  have hsame : ∀ step : Step,
      step ∈ [.explore "A" (some 0), .analyze ["B"] none, .direct "C"] ↔
        step ∈ [.direct "C", .analyze ["B"] none, .direct "C", .explore "A" (some 0)] := by
    intro step
    simp only [List.mem_cons, List.not_mem_nil, or_false]
    tauto
  obtain ⟨horder, -⟩ := after_order_independent ring ["C"] {} ⟨[], rfl⟩
  exact (horder _ _ hsame).2.2.2.2

end TypeIndex

end TypeAtlas
