import TypeAtlas.Proofs.Session.Index
import TypeAtlas.Proofs.Session.Steps

/-!
# The cache cannot be seen

Whatever a session has cached and recorded, and however it came to that, a question that does not
ask for just this is answered as in a session in which nothing has been asked.

Main statement: `TypeIndex.answers_as_fresh`.
-/

namespace TypeAtlas

namespace Context

variable {ctx : Context Unit} {s s' : Session Unit}

/-- The direct references of a type, computed from its description without a look at any cache. -/
def computed (ctx : Context Unit) (t : TypeName) : Except Failure NameSet :=
  ((ctx.mentioned t).run ()).1.map (ctx.keepReferences t)

/-- A settled question has the same outcome in all coherent sessions. -/
theorem Settled.outcome_eq {α : Type} {m : Run Unit α} (hm : ctx.Settled m) (hs : ctx.Coherent s)
    (hs' : ctx.Coherent s') : (m.run s).1 = (m.run s').1 := by
  obtain ⟨r, g, hyields, -⟩ := hm
  rw [(hyields s hs).1, (hyields s' hs').1]

/-- In a session in which nothing is cached the direct references of a type are computed. -/
theorem outcome_directReferences_fresh (t : TypeName) :
    ((ctx.directReferences t).run Session.fresh).1 = ctx.computed t := by
  rw [run_directReferences_of_none rfl]
  unfold computed
  cases ((ctx.mentioned t).run ()).1 with
  | error f => rfl
  | ok ns => rfl

/-- The references that a coherent session has cached are the computed ones. -/
theorem Coherent.computed_eq (hs : ctx.Coherent s) {t : TypeName} {rs : NameSet}
    (ht : s.descriptors.get? t = some rs) : ctx.computed t = .ok rs := by
  have hrefs : (ctx.computed t).toOption = some rs := by
    rw [← outcome_directReferences_fresh]
    exact hs.known t rs ht
  cases hcomputed : ctx.computed t with
  | error f =>
    rw [hcomputed] at hrefs
    cases hrefs
  | ok rs' =>
    rw [hcomputed] at hrefs
    cases hrefs
    rfl

end Context

namespace TypeIndex

/-- After any steps, some of which may fail or record edges by hand, every step that does not tell
    what the session has seen has the outcome that it has in a new session, be it an answer or a
    failure. The direct references of a type, cached or not, are the computed ones. -/
theorem answers_as_fresh (x : TypeIndex) (blind : List TypeName) (config : Config)
    {s : Session Unit} (hs : (x.context blind config).Reached s) :
    (∀ step : Step, step.looksBack = false →
      ((x.context blind config).step s step).1 =
        ((x.context blind config).step Session.fresh step).1) ∧
    (∀ t, (((x.context blind config).directReferences t).run s).1 =
      (x.context blind config).computed t) ∧
    ∀ t rs, s.descriptors.get? t = some rs → (x.context blind config).computed t = .ok rs := by
  have hctx := lawful_context x blind config
  have hcoherent := hs.coherent hctx
  refine ⟨?_, ?_, ?_⟩
  · intro step hstep
    exact (Context.settled_answer hctx hstep).outcome_eq hcoherent Context.coherent_fresh
  · intro t
    rw [← Context.outcome_directReferences_fresh]
    exact (Context.settled_directReferences hctx t).outcome_eq hcoherent Context.coherent_fresh
  · intro t rs ht
    exact hcoherent.computed_eq ht

/-- Exploring from `A` after an edge drawn by hand, a step that fails and an analysis. -/
theorem answers_as_fresh_ring :
    (Step.explore "A" (some 1)).looksBack = false ∧
      ((ring.context ["C"] {}).step
          ((ring.context ["C"] {}).after Session.fresh
            [.graph (.addEdge "C" "A"), .direct "C", .analyze ["B"] none])
          (.explore "A" (some 1))).1 =
        ((ring.context ["C"] {}).step Session.fresh (.explore "A" (some 1))).1 := by
  obtain ⟨hsteps, -, -⟩ := answers_as_fresh ring ["C"] {}
    ⟨[.graph (.addEdge "C" "A"), .direct "C", .analyze ["B"] none], rfl⟩
  exact ⟨rfl, hsteps (.explore "A" (some 1)) rfl⟩

end TypeIndex

end TypeAtlas
