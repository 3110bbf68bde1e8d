import TypeAtlas.Proofs.Graph.History
import TypeAtlas.Proofs.Session.Lockstep

/-!
# Recording transitive edges

Whether a walk records the edges between all types that it reaches, or the direct ones alone, is a
matter of the graph. Two sessions that differ in this setting take the same steps in lockstep: the
graph of one extends that of the other, and nothing that is computed looks at the edges.

Main statement: `Context.recording_only_extends_graph`.
-/

namespace TypeAtlas

/-! ## §1 Graphs that extend others -/

namespace Graph

/-- The second graph has the roots of the first, and its edges among others. -/
structure Extends (g g' : Graph) : Prop where
  roots : g'.roots = g.roots
  edges : ∀ e ∈ g.edges, e ∈ g'.edges

namespace Extends

variable {g g' : Graph}

protected theorem refl (g : Graph) : g.Extends g := ⟨rfl, fun _ he => he⟩

/-- Edges may be added to the larger graph alone. -/
theorem addEdges (h : g.Extends g') (new : List Edge) : g.Extends (g'.addEdges new) where
  roots := h.roots
  edges e he := mem_edges_addEdges.2 (.inr (h.edges e he))

/-- The same step may be taken on both graphs. -/
theorem after (h : g.Extends g') (step : GraphStep) : (g.after step).Extends (g'.after step) where
  roots := by
    apply OrdSet.ext
    intro t
    rw [mem_roots_after, mem_roots_after, h.roots]
  edges e he := mem_edges_after.2 ((mem_edges_after.1 he).imp_right (h.edges e))

theorem referrers_subset (h : g.Extends g') (t : TypeName) : g.referrers t ⊆ g'.referrers t :=
  fun _ hu => mem_referrers_iff.2 (h.edges _ (mem_referrers_iff.1 hu))

/-- An edge weighs the same in both graphs, since they have the same roots. -/
theorem edgeRows_subset (h : g.Extends g') : g.edgeRows ⊆ g'.edgeRows := by
  intro row hrow
  obtain ⟨⟨hedge, hends⟩, hweight⟩ := mem_edgeRows_iff.1 hrow
  rw [← h.roots] at hweight
  exact mem_edgeRows_iff.2 ⟨⟨h.edges _ hedge, hends⟩, hweight⟩

end Extends

end Graph

/-! ## §2 Answers that the edges decide -/

/-- Whether a step on the graph asks for something that the edges decide. -/
def GraphStep.readsEdges : GraphStep → Bool
  | .contains _ => true
  | .referrers _ => true
  | .connectionCount _ => true
  | .size => true
  | .nodes => true
  | .edges => true
  | _ => false

/-- Whether a step asks for something that the edges decide. -/
def Step.readsEdges : Step → Bool
  | .neighbourhood _ => true
  | .analyze _ _ => true
  | .graph step => step.readsEdges
  | _ => false

theorem Graph.Extends.answer_eq {g g' : Graph} (h : g.Extends g') {step : GraphStep}
    (hreads : step.readsEdges = false) : g'.answer step = g.answer step := by
  cases step with
  | isRoot t =>
    unfold answer isRoot
    rw [h.roots]
  | roots =>
    unfold answer
    rw [h.roots]
  | addEdge a b => rfl
  | addAll ts b => rfl
  | addRoot t => rfl
  | _ => cases hreads

/-- The neighbours of a type, told out of a graph and out of one that extends it. -/
structure Neighbourhood.Extends (n n' : Neighbourhood) : Prop where
  target : n'.target = n.target
  references : n'.references = n.references
  referrers : n.referrers ⊆ n'.referrers

/-- The outcome of an analysis, told out of a graph and out of one that extends it. -/
structure Analysis.Extends (a a' : Analysis) : Prop where
  depth : a'.depth = a.depth
  roots : a'.roots = a.roots
  metrics : a'.metrics = a.metrics
  unresolved : a'.unresolved = a.unresolved
  edges : a.edges ⊆ a'.edges

theorem Neighbourhood.extends_of_agrees {σ : Type} {t : TypeName} {n n' : Neighbourhood}
    (h : (Step.neighbourhood t).Agrees (Session.SameBut (σ := σ) Graph.Extends) (.neighbourhood n)
      (.neighbourhood n')) : n.Extends n' := by
  cases h with
  | same => exact ⟨rfl, rfl, List.Subset.refl _⟩
  | listing hlists _ => cases hlists
  | neighbourhood _ _ hs => exact ⟨rfl, rfl, hs.graph.referrers_subset t⟩

theorem Analysis.extends_of_agrees {σ : Type} {names : List String} {asked : Option Int}
    {a a' : Analysis}
    (h : (Step.analyze names asked).Agrees (Session.SameBut (σ := σ) Graph.Extends) (.analysis a)
      (.analysis a')) : a.Extends a' := by
  cases h with
  | same => exact ⟨rfl, rfl, rfl, rfl, List.Subset.refl _⟩
  | listing hlists _ => cases hlists
  | analysis _ _ _ hs => exact ⟨rfl, rfl, rfl, rfl, hs.graph.edgeRows_subset⟩

namespace Context

open Run (InStep inStep_pure)

variable {σ : Type} {ctx ctx' : Context σ} {R : Session σ → Session σ → Prop}

/-- A provider lists the same on both sides if it is the same provider. -/
theorem Lockstep.answer_of_lists (h : ctx.Lockstep ctx' R)
    (hprovider : ctx'.provider = ctx.provider) {step : Step} (hlists : step.lists = true) :
    InStep R Eq (ctx.answer step) (ctx'.answer step) := by
  have same : ∀ {α β : Type} {m m' : Asking σ α} (form : α → β), m' = m →
      InStep R Eq (Run.ask m >>= fun a => pure (form a))
        (Run.ask m' >>= fun a => pure (form a)) := by
    intro α β m m' form hm
    rw [hm]
    exact (h.ask (m.matches_refl fun _ => rfl)).bind_eq fun _ => inStep_pure rfl
  cases step with
  | search n => exact same _ (congrArg (fun p => p.search n) hprovider)
  | fields t => exact same _ (congrArg (fun p => p.fields t) hprovider)
  | interfaces t => exact same _ (congrArg (fun p => p.interfaces t) hprovider)
  | nestedTypes t => exact same _ (congrArg (fun p => p.nestedTypes t) hprovider)
  | resolution n =>
    have hsearch : InStep R Eq (ctx.resolution n) (ctx'.resolution n) :=
      same (Resolution.mk n) (congrArg (fun p => p.search n) hprovider)
    exact hsearch.bind_eq fun _ => inStep_pure rfl
  | _ => cases hlists

/-! ## §3 Two settings -/

/-- The context with the setting for transitive edges as given. -/
def recording (ctx : Context σ) (transitive : Bool) : Context σ :=
  { ctx with config := { ctx.config with transitiveEdges := transitive } }

theorem lockstep_recording (ctx : Context σ) :
    (ctx.recording false).Lockstep (ctx.recording true) (Session.SameBut Graph.Extends) :=
  lockstep_sameBut ctx.provider.matches_refl rfl (fun _ _ hg new => hg.addEdges new)
    fun _ _ hg step => hg.after step

/-- Answers that agree while one graph extends the other are the same, unless the edges decide
    them or the provider lists types or fields. -/
theorem eq_of_agrees {step : Step} {a a' : Answer} (hlists : step.lists = false)
    (hreads : step.readsEdges = false)
    (h : step.Agrees (Session.SameBut (σ := σ) Graph.Extends) a a') : a = a' := by
  cases h with
  | same => rfl
  | graph step hs => exact congrArg Answer.graph (hs.graph.answer_eq hreads).symm
  | listing h' _ => cases hlists.symm.trans h'
  | neighbourhood _ _ _ => cases hreads
  | analysis _ _ _ _ => cases hreads

/-- A step has the same outcome in both sessions, unless the edges decide it. -/
theorem step_recording_eq (ctx : Context σ) {s s' : Session σ} (hs : s.SameBut Graph.Extends s')
    {step : Step} (hreads : step.readsEdges = false) :
    ((ctx.recording true).step s' step).1 = ((ctx.recording false).step s step).1 := by
  have hlock := lockstep_recording ctx
  cases hlists : step.lists with
  | true =>
    have hagree := (hlock.answer_of_lists rfl hlists s s' hs).1
    exact (agree_eq_iff.1 hagree).symm
  | false =>
    have hagree := (hlock.step hs step).1.mono fun _ _ => eq_of_agrees hlists hreads
    exact (agree_eq_iff.1 hagree).symm

/-- Two sessions that take the same steps, one recording direct edges alone and the other transitive
    ones too, have the same cache, log and roots after each step, and the edges of the first are
    among those of the second. A step has the same outcome in both, unless the edges decide it, and
    fails in both or in neither. Neighbours and analyses differ in nothing but the referrers and the
    tables, and the referrers and the rows of edges of the first are among those of the second. -/
theorem recording_only_extends_graph (ctx : Context σ) (s : Session σ) (steps : List Step) :
    let direct := (ctx.recording false).after s steps
    let transitive := (ctx.recording true).after s steps
    (transitive.descriptors = direct.descriptors ∧ transitive.log = direct.log ∧
      direct.graph.Extends transitive.graph) ∧
    (∀ step : Step, step.readsEdges = false →
      ((ctx.recording true).step transitive step).1 = ((ctx.recording false).step direct step).1) ∧
    (∀ (step : Step) (f : Failure),
      ((ctx.recording true).step transitive step).1 = .error f ↔
        ((ctx.recording false).step direct step).1 = .error f) ∧
    (∀ t, Agree Neighbourhood.Extends (((ctx.recording false).neighbourhood t).run direct).1
      (((ctx.recording true).neighbourhood t).run transitive).1) ∧
    ∀ names depth, Agree Analysis.Extends
      (((ctx.recording false).analysis names depth).run direct).1
      (((ctx.recording true).analysis names depth).run transitive).1 := by
  intro direct transitive
  have hlock := lockstep_recording ctx
  have hsame : direct.SameBut Graph.Extends transitive :=
    hlock.after ⟨rfl, rfl, rfl, .refl _⟩ steps
  refine ⟨⟨hsame.descriptors, hsame.log, hsame.graph⟩, ?_, ?_, ?_, ?_⟩
  · exact fun step hreads => ctx.step_recording_eq hsame hreads
  · exact fun step f => ((hlock.step hsame step).1.error_iff f).symm
  · exact fun t => (hlock.neighbourhood t direct transitive hsame).1.mono fun _ _ =>
      Neighbourhood.extends_of_agrees
  · intro names depth
    exact (hlock.analysis names depth direct transitive hsame).1.mono fun _ _ =>
      Analysis.extends_of_agrees

end Context

end TypeAtlas
