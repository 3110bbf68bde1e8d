import TypeAtlas.Proofs.Session.Index
import TypeAtlas.Proofs.Session.OnRecord
import TypeAtlas.Proofs.Session.Steps

/-!
# Failing questions

When a question fails, and what a failure leaves behind. Whatever the provider, a failed computation
of direct references leaves cache and graph as they were. Over an index a walk fails for its depth
first and for its root then, and never for a type that it meets on its way.

Main statement: `TypeIndex.failures_change_nothing`.
-/

namespace TypeAtlas

namespace Context

/-! ## §1 Direct references -/

/-- Cache and graph are written when the references of a type have been computed, so a failure at
    any question that this asks finds them as they were. -/
theorem eq_of_run_directReferences_error {σ : Type} {ctx : Context σ} {t : TypeName}
    {s s' : Session σ} {f : Failure} (h : (ctx.directReferences t).run s = (.error f, s')) :
    s'.descriptors = s.descriptors ∧ s'.graph = s.graph := by
  have htells := ctx.tells_directReferences t s
  rw [h] at htells
  cases htells
  exact ⟨rfl, rfl⟩

/-! ## §2 Walks -/

/-- A question that walks from `root` fails at the session for a depth below minus one, else for a
    root that is not describable, and for nothing else. No failure changes cache or graph. -/
structure FailsFor {α : Type} (describable : Prop) (root : TypeName) (depth : Int)
    (m : Run Unit α) (s : Session Unit) : Prop where
  depthBelow : ∀ d, (m.run s).1 = .error (.depthBelow d) ↔ depth < -1 ∧ d = depth
  unresolved : ∀ n, (m.run s).1 = .error (.unresolved n) ↔
    -1 ≤ depth ∧ ¬ describable ∧ n = root
  answered : -1 ≤ depth → describable → ∃ a, (m.run s).1 = .ok a
  unchanged : ∀ f, (m.run s).1 = .error f →
    (m.run s).2.descriptors = s.descriptors ∧ (m.run s).2.graph = s.graph

variable {ctx : Context Unit} {s : Session Unit}

theorem failsFor_explore (hctx : ctx.Lawful) (hs : ctx.Coherent s) (root : TypeName)
    (depth : Int) :
    FailsFor (∃ rs, ctx.refs root = some rs) root depth (ctx.explore root depth) s := by
  cases hb : Bound.ofInt? depth with
  | none =>
    -- the depth is refused, whatever the root
    have hdepth : depth < -1 := Bound.ofInt?_eq_none_iff.1 hb
    have hyields : ctx.Yields (ctx.explore root depth) _ ∅ := yields_explore_depthBelow hb
    have hval := (hyields s hs).1
    refine { depthBelow := ?below, unresolved := ?unresolved, answered := ?answered,
             unchanged := fun _ _ => (hyields s hs).2.eq_of_empty } <;> rw [hval]
    case below => simp [hdepth, eq_comm]
    case unresolved => simp [Int.not_le.2 hdepth]
    case answered => exact fun hle => absurd hdepth (Int.not_lt.2 hle)
  | some bound =>
    have hdepth : ¬ depth < -1 := by
      rw [← Bound.ofInt?_eq_none_iff, hb]
      exact nofun
    cases href : ctx.refs root with
    | none =>
      have hyields := yields_explore_unresolved hctx href hb
      have hval := (hyields s hs).1
      refine { depthBelow := ?below, unresolved := ?unresolved, answered := ?answered,
               unchanged := fun _ _ => (hyields s hs).2.eq_of_empty } <;> rw [hval]
      case below => simp [hdepth]
      case unresolved => simp [eq_comm, Int.not_lt.1 hdepth]
      case answered => simp
    | some rs =>
      have hval := (yields_explore hctx ⟨rs, href⟩ hb s hs).1
      -- answered, whatever the neighbours of the root are
      refine { depthBelow := ?below, unresolved := ?unresolved, answered := ?answered,
               unchanged := ?unchanged } <;> rw [hval]
      case below => simp [hdepth]
      case unresolved => simp
      case answered => exact fun _ _ => ⟨_, rfl⟩
      case unchanged => exact nofun

/-- Giving the answer another form makes no difference to failures. -/
theorem FailsFor.map {α β : Type} {m : Run Unit α} {describable : Prop} {root : TypeName}
    {depth : Int} (h : FailsFor describable root depth m s) (form : α → β) :
    FailsFor describable root depth (m >>= fun a => pure (form a)) s := by
  refine { depthBelow := ?below, unresolved := ?unresolved, answered := ?answered,
           unchanged := ?unchanged } <;> simp only [Asking.run_map, Asking.map_eq_error_iff]
  case below => exact h.depthBelow
  case unresolved => exact h.unresolved
  case answered =>
    intro hdepth hroot
    obtain ⟨a, ha⟩ := h.answered hdepth hroot
    exact ⟨form a, by rw [ha]; rfl⟩
  case unchanged => exact h.unchanged

/-! ## §3 Questions about one type -/

/-- A question about `t` fails at the session to resolve a type exactly if `t` is not describable.
    It names `t` then, and changes neither cache nor graph. -/
structure UnresolvedFor {α : Type} (describable : Prop) (t : TypeName) (m : Run Unit α)
    (s : Session Unit) : Prop where
  unresolved : ∀ n, (m.run s).1 = .error (.unresolved n) ↔ ¬ describable ∧ n = t
  unchanged : ∀ n, (m.run s).1 = .error (.unresolved n) →
    (m.run s).2.descriptors = s.descriptors ∧ (m.run s).2.graph = s.graph

section

variable {α : Type} {m : Run Unit α} {describable : Prop} {t : TypeName}

theorem UnresolvedFor.of_yields (hm : ctx.Yields m (.error (.unresolved t)) ∅)
    (hs : ctx.Coherent s) (hnot : ¬ describable) : UnresolvedFor describable t m s := by
  refine ⟨?_, fun _ _ => (hm s hs).2.eq_of_empty⟩
  rw [(hm s hs).1]
  simp [hnot, eq_comm]

theorem UnresolvedFor.of_ne (hne : ∀ n, (m.run s).1 ≠ .error (.unresolved n))
    (hdescribable : describable) : UnresolvedFor describable t m s where
  unresolved n := ⟨fun h => absurd h (hne n), fun h => absurd hdescribable h.1⟩
  unchanged n h := absurd h (hne n)

end

theorem unresolvedFor_metrics (hctx : ctx.Lawful) (hs : ctx.Coherent s) (t : TypeName)
    (depth : Option Int) :
    UnresolvedFor (∃ rs, ctx.refs t = some rs) t (ctx.metrics t depth) s := by
  cases href : ctx.refs t with
  | none => exact .of_yields (yields_metrics_unresolved hctx href depth) hs (by simp)
  | some rs =>
    obtain ⟨r, g, hyields, hsure⟩ := sure_metrics hctx href depth
    apply UnresolvedFor.of_ne _ ⟨rs, rfl⟩
    rw [(hyields s hs).1]
    exact hsure

theorem exists_run_neighbourhood (hs : ctx.Coherent s) {t : TypeName} {rs : NameSet}
    (ht : ctx.refs t = some rs) : ∃ n, ((ctx.neighbourhood t).run s).1 = .ok n := by
  obtain ⟨s', hrun, -⟩ := (yields_directReferences ht).exists_run hs
  unfold neighbourhood
  rw [Asking.run_bind_of_ok hrun]
  exact ⟨_, rfl⟩

theorem unresolvedFor_neighbourhood (hctx : ctx.Lawful) (hs : ctx.Coherent s) (t : TypeName) :
    UnresolvedFor (∃ rs, ctx.refs t = some rs) t (ctx.neighbourhood t) s := by
  cases href : ctx.refs t with
  | none =>
    have hyields : ctx.Yields (ctx.neighbourhood t) _ ∅ :=
      (yields_directReferences_unresolved hctx href).bind_error
    exact .of_yields hyields hs (by simp)
  | some rs =>
    obtain ⟨n, hn⟩ := exists_run_neighbourhood hs href
    apply UnresolvedFor.of_ne _ ⟨rs, rfl⟩
    rw [hn]
    exact nofun

end Context

/-! ## §4 Sessions over an index -/

namespace TypeIndex

/-- Whatever the provider, direct references that cannot be computed change neither cache nor graph.
    In every session over an index that steps lead to, explorations, closures and closure trees fail
    for a depth below minus one, else for a root that cannot be described, and for nothing else; a
    type has a neighbourhood exactly if it can be described; and its metrics fail to resolve a type
    exactly if they do so at its own description, whatever the depth. None of these failures changes
    cache or graph. -/
theorem failures_change_nothing :
    (∀ {σ : Type} (ctx : Context σ) (t : TypeName) (s s' : Session σ) (f : Failure),
      (ctx.directReferences t).run s = (.error f, s') →
        s'.descriptors = s.descriptors ∧ s'.graph = s.graph) ∧
    ∀ (x : TypeIndex) (blind : List TypeName) (config : Config) (s : Session Unit),
      (x.context blind config).Reached s → ∀ t,
        (∀ depth, Context.FailsFor (x.Describes blind t) t depth
          ((x.context blind config).explore t depth) s) ∧
        (∀ depth, Context.FailsFor (x.Describes blind t) t
          ((x.context blind config).depthOr depth) ((x.context blind config).closure t depth) s) ∧
        (∀ depth, Context.FailsFor (x.Describes blind t) t
          ((x.context blind config).depthOr depth)
          ((x.context blind config).closureTree t depth) s) ∧
        (x.Describes blind t → ∃ n, (((x.context blind config).neighbourhood t).run s).1 = .ok n) ∧
        Context.UnresolvedFor (x.Describes blind t) t
          ((x.context blind config).neighbourhood t) s ∧
        ∀ depth, Context.UnresolvedFor (x.Describes blind t) t
          ((x.context blind config).metrics t depth) s := by
  refine ⟨fun _ _ _ _ _ h => Context.eq_of_run_directReferences_error h, ?_⟩
  intro x blind config s hs t
  have hctx := lawful_context x blind config
  have hcoherent := hs.coherent hctx
  have hdescribes : (∃ rs, (x.context blind config).refs t = some rs) ↔ x.Describes blind t :=
    exists_refs_context_iff
  rw [← hdescribes]
  have hexplore := Context.failsFor_explore hctx hcoherent t
  refine ⟨hexplore, ?_, ?_, ?_, ?_, ?_⟩
  · exact fun depth => (hexplore _).map Exploration.types
  · exact fun depth => (hexplore _).map ClosureTree.ofExploration
  · intro ht
    obtain ⟨rs, hrs⟩ := ht
    exact Context.exists_run_neighbourhood hcoherent hrs
  · exact Context.unresolvedFor_neighbourhood hctx hcoherent t
  · exact Context.unresolvedFor_metrics hctx hcoherent t

/-- An index that does not tell the methods of any type. -/
def mumbling : Context Unit where
  provider := { ring.provider with methods := fun t => throw (.unresolved t) }
  config := {}

/-- A provider that fails at a late question, and walks from a blind type and to no depth. -/
theorem failures_change_nothing_ring :
    (∃ s', (mumbling.directReferences "A").run Session.fresh = (.error (.unresolved "A"), s') ∧
        s'.descriptors = Session.fresh.descriptors ∧ s'.graph = Session.fresh.graph) ∧
      (((ring.context ["C"] {}).explore "C" 0).run Session.fresh).1 = .error (.unresolved "C") ∧
      (((ring.context ["C"] {}).explore "C" (-2)).run Session.fresh).1 =
        .error (.depthBelow (-2)) ∧
      ∃ e, (((ring.context ["C"] {}).explore "A" (-1)).run Session.fresh).1 = .ok e := by
  obtain ⟨hdirect, hindex⟩ := failures_change_nothing
  have hrun : (mumbling.directReferences "A").run Session.fresh =
      (.error (.unresolved "A"), { Session.fresh with log := [.computing "A"] }) := rfl
  have hwalk := fun t => (hindex ring ["C"] {} Session.fresh ⟨[], rfl⟩ t).1
  have hroot : ring.Describes ["C"] "A" := ⟨by decide, by decide⟩
  have hblind : ¬ ring.Describes ["C"] "C" := fun h => h.2 (by decide)
  refine ⟨⟨_, hrun, hdirect mumbling "A" _ _ _ hrun⟩, ?_, ?_, ?_⟩
  · exact ((hwalk "C" 0).unresolved "C").2 ⟨by decide, hblind, rfl⟩
  · exact ((hwalk "C" (-2)).depthBelow (-2)).2 ⟨by decide, rfl⟩
  · exact (hwalk "A" (-1)).answered (by decide) hroot

end TypeIndex

end TypeAtlas
