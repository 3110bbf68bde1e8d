import TypeAtlas.Proofs.Closure.Record
import TypeAtlas.Proofs.Session.Gain

/-!
# Explorations

Exploring within a session comes to the record of a walk over the references that the provider
fixes, whatever the session knows already, and adds to the session what the record says.
-/

namespace TypeAtlas

/-! ## §1 Walking within a session -/

theorem Walk.expands_look {refs : Refs} {bound : Bound} {w : Walk} {t u : TypeName} {k : Nat} :
    (w.look refs bound t k).adjacency.expands u = true ↔
      w.adjacency.expands u = true ∨
        (u = t ∧ bound.admits k = true ∧ ∃ rs, refs t = some rs) := by
  unfold look
  by_cases hk : bound.admits k = true
  · cases hrs : refs t with
    | some rs =>
      -- the entry of `t` is appended
      simp only [hk, if_true, expand_eq, Adjacency.expands, List.any_append, Bool.or_eq_true,
        List.any_cons, List.any_nil, Bool.or_false, beq_iff_eq, true_and]
      exact or_congr_right ⟨fun h => ⟨h.symm, rs, rfl⟩, fun h => h.1.symm⟩
    | none => simp [hk, giveUp, pass]
  · -- beyond the bound nothing is expanded
    simp [hk, pass]

namespace Context

variable {ctx : Context Unit}

/-- One step within a session is one step over the references that the provider fixes. -/
theorem yields_walkStep (hctx : ctx.Lawful) {root : TypeName}
    (hroot : ∃ rs, ctx.refs root = some rs)
    (bound : Bound) (w : Walk) (t : TypeName) (k : Nat) :
    ctx.Yields (ctx.walkStep root bound w t k) (.ok (w.look ctx.refs bound t k))
      (.learning {u | u = t ∧ bound.admits k = true ∧ ∃ rs, ctx.refs t = some rs}) := by
  unfold walkStep Walk.look
  by_cases hk : bound.admits k = true
  · rw [if_pos hk, if_pos hk]
    cases ht : ctx.refs t with
    | some rs =>
      have hlearned : {u | u = t ∧ bound.admits k = true ∧ ∃ rs', some rs = some rs'} = {t} :=
        Set.ext fun u => ⟨fun h => h.1, fun h => ⟨h, hk, rs, rfl⟩⟩
      rw [hlearned]
      exact (yields_directReferences ht).orUnresolved.bind_empty (yields_pure _)
    | none =>
      -- `t` is not the root, for that can be described
      have hne : t ≠ root := by
        intro heq
        obtain ⟨rs, hrs⟩ := hroot
        rw [← heq, ht] at hrs
        cases hrs
      have hlearned :
          {u | u = t ∧ bound.admits k = true ∧ ∃ rs', (none : Option NameSet) = some rs'} = ∅ :=
        Set.eq_empty_of_forall_notMem fun u h => by
          obtain ⟨-, -, rs', hrs'⟩ := h
          cases hrs'
      rw [hlearned]
      refine (yields_directReferences_unresolved hctx ht).orUnresolved.empty_bind ?_
      simp only [if_neg hne]
      exact (yields_note _).empty_bind (yields_pure _)
  · -- beyond the bound the provider is not asked
    rw [if_neg hk, if_neg hk]
    have hlearned : {u | u = t ∧ bound.admits k = true ∧ ∃ rs, ctx.refs t = some rs} = ∅ :=
      Set.eq_empty_of_forall_notMem fun u h => hk h.2.1
    rw [hlearned]
    exact yields_pure _

/-- Walking within a session is a run over the references that the provider fixes, and the types
    that it expands are learned. -/
theorem exists_yields_walk (hctx : ctx.Lawful) {root : TypeName}
    (hroot : ∃ rs, ctx.refs root = some rs) (bound : Bound) (fuel : Nat) (w : Walk) :
    ∃ learned : Set TypeName,
      ctx.Yields (ctx.walk root bound fuel w) (.ok (w.run ctx.refs bound fuel))
        (.learning learned) ∧
      ∀ t, (w.run ctx.refs bound fuel).adjacency.expands t = true ↔
        w.adjacency.expands t = true ∨ t ∈ learned := by
  induction fuel generalizing w with
  | zero => exact ⟨∅, yields_pure w, fun t => (or_iff_left (Set.notMem_empty t)).symm⟩
  | succ fuel ih =>
    unfold walk Walk.run
    cases hq : w.queue with
    | nil => exact ⟨∅, yields_pure w, fun t => (or_iff_left (Set.notMem_empty t)).symm⟩
    | cons e rest =>
      obtain ⟨t, k⟩ := e
      -- what the first step learns, and what the rest of the walk learns
      have hstep := yields_walkStep hctx hroot bound w t k
      obtain ⟨learned, hrest, hexpands⟩ := ih (w.look ctx.refs bound t k)
      have hboth := hstep.bind hrest
      rw [Gain.learning_union] at hboth
      refine ⟨_, hboth, ?_⟩
      intro u
      rw [hexpands, Walk.expands_look, or_assoc]
      exact Iff.rfl

end Context

/-! ## §2 The record and its gain -/

/-- What a walk that has come to its end found out, as an exploration. -/
def Walk.exploration (w : Walk) (root : TypeName) (bound : Bound) : Exploration where
  root := root
  bound := bound
  types := reachable w.adjacency root
  adjacency := w.adjacency
  depths := w.depths
  parents := w.parents
  unresolved := w.unresolved

/-- What an exploration adds to a session: the references of the types that it expanded, and what
    each of them reaches if the settings ask for it. -/
def Exploration.gain (x : Exploration) (transitive : Bool) : Gain where
  learned := {t | x.adjacency.expands t = true}
  edges := {e | transitive = true ∧ x.adjacency.expands e.source = true ∧
    e.target ∈ reachable x.adjacency e.source}
  roots := ∅

/-- The edges recorded for what expanded types reach. -/
theorem mem_reachedEdges {w : Walk} {root : TypeName} {e : Edge} :
    e ∈ Context.reachedEdges w root (reachable w.adjacency root) ↔
      w.adjacency.expands e.source = true ∧ e.target ∈ reachable w.adjacency e.source := by
  -- what the root reaches is taken over instead of computed again
  have hfrom : ∀ t, Context.reachedFrom w root (reachable w.adjacency root) t =
      reachable w.adjacency t := by
    intro t
    unfold Context.reachedFrom
    split
    case isTrue ht => rw [ht]
    case isFalse => rfl
  obtain ⟨target, source⟩ := e
  simp only [Context.reachedEdges, hfrom, List.mem_flatMap, List.mem_map, Edge.mk.injEq,
    Adjacency.expands, List.any_eq_true, beq_iff_eq]
  apply Iff.intro
  · intro h
    obtain ⟨a, ha, _, ht, rfl, rfl⟩ := h
    exact ⟨⟨a, ha, rfl⟩, ht⟩
  · intro h
    obtain ⟨⟨a, ha, rfl⟩, ht⟩ := h
    exact ⟨a, ha, target, ht, rfl, rfl⟩

namespace Context

variable {ctx : Context Unit} {root : TypeName} {bound : Bound}

/-- The walk from a root over the references that the provider fixes, apart from any session. -/
def record (ctx : Context Unit) (root : TypeName) (bound : Bound) : Walk :=
  (Walk.start root).run ctx.refs bound (ctx.provider.capacity () + 2)

theorem finished_record (hctx : ctx.Lawful) (root : TypeName) (bound : Bound) :
    Walk.Finished ctx.refs root bound (ctx.record root bound) := by
  obtain ⟨names, hlength, hnames⟩ := hctx.ample
  have hroot : root ∈ root :: names := List.mem_cons_self
  apply Walk.finished_run hroot
  · intro u t hlead
    exact List.mem_cons_of_mem root (hnames u t hlead)
  · -- the capacity leaves room for the root besides the names
    rw [List.length_cons]
    omega

/-! ## §3 Exploring -/

/-- What is drawn for the types that a walk expanded, if the settings ask for it. -/
theorem yields_drawing_reached (w : Walk) (transitive : Bool) (x : Exploration) :
    ctx.Yields
      (if transitive = true then
        Run.updateGraph (fun g => g.addEdges (reachedEdges w root (reachable w.adjacency root))) >>=
          fun _ => pure x
      else pure x : Run Unit Exploration)
      (.ok x)
      (.drawing {e | transitive = true ∧ w.adjacency.expands e.source = true ∧
        e.target ∈ reachable w.adjacency e.source}) := by
  cases transitive with
  | true =>
    have hdrawn : {e : Edge | e ∈ reachedEdges w root (reachable w.adjacency root) ∧
          e.target ≠ e.source} =
        {e | true = true ∧ w.adjacency.expands e.source = true ∧
          e.target ∈ reachable w.adjacency e.source} := by
      apply Set.ext
      intro e
      simp only [Set.mem_ofPred_eq, mem_reachedEdges, true_and]
      -- a type is not among those that it reaches
      apply and_iff_left_of_imp
      intro h
      exact (mem_reachable_iff.1 h.2).1
    rw [if_pos rfl, ← hdrawn]
    exact (yields_addEdges _).bind_empty (yields_pure x)
  | false =>
    have hnone : {e : Edge | false = true ∧ w.adjacency.expands e.source = true ∧
        e.target ∈ reachable w.adjacency e.source} = ∅ :=
      Set.eq_empty_of_forall_notMem fun e h => Bool.false_ne_true h.1
    rw [if_neg Bool.false_ne_true, hnone]
    exact yields_pure x

/-- From a root that can be described an exploration comes to the record of a walk, and adds what
    that says. -/
theorem yields_exploreWithin (hctx : ctx.Lawful) (hroot : ∃ rs, ctx.refs root = some rs) :
    ctx.Yields (ctx.exploreWithin root bound)
      (.ok ((ctx.record root bound).exploration root bound))
      (((ctx.record root bound).exploration root bound).gain ctx.config.transitiveEdges) := by
  unfold exploreWithin
  apply yields_get_bind
  intro s
  obtain ⟨learned, hwalk, hexpands⟩ :=
    exists_yields_walk hctx hroot bound (ctx.provider.capacity () + 2) (.start root)
  have hlearned : {t | (ctx.record root bound).adjacency.expands t = true} = learned := by
    apply Set.ext
    intro t
    apply (hexpands t).trans
    -- at its start the walk has expanded nothing
    simp [Walk.start, Adjacency.expands]
  have hgain : ((ctx.record root bound).exploration root bound).gain ctx.config.transitiveEdges =
      .learning learned ∪ .drawing {e | ctx.config.transitiveEdges = true ∧
        (ctx.record root bound).adjacency.expands e.source = true ∧
        e.target ∈ reachable (ctx.record root bound).adjacency e.source} := by
    rw [← hlearned]
    show Gain.mk _ _ _ = Gain.mk (_ ∪ ∅) (∅ ∪ _) (∅ ∪ ∅)
    simp only [Set.union_empty, Set.empty_union]
    rfl
  rw [hgain]
  exact hwalk.bind (yields_drawing_reached _ _ _)

/-- An exploration from a root that cannot be described fails on it, and adds nothing. -/
theorem yields_exploreWithin_unresolved (hctx : ctx.Lawful) (hroot : ctx.refs root = none) :
    ctx.Yields (ctx.exploreWithin root bound) (.error (.unresolved root)) ∅ := by
  have hstep : ctx.Yields (ctx.walkStep root bound (.start root) root 0)
      (.error (.unresolved root)) ∅ := by
    unfold walkStep
    rw [if_pos bound.admits_zero]
    refine (yields_directReferences_unresolved hctx hroot).orUnresolved.empty_bind ?_
    simp only [if_true]
    exact yields_throw _
  -- the first step fails, so nothing after it is done
  unfold exploreWithin
  apply yields_get_bind
  intro s
  exact Yields.bind_error (Yields.bind_error hstep)

/-- From a root that can be described an exploration to a depth comes to the record of a walk. -/
theorem yields_explore (hctx : ctx.Lawful) (hroot : ∃ rs, ctx.refs root = some rs) {depth : Int}
    (hb : Bound.ofInt? depth = some bound) :
    ctx.Yields (ctx.explore root depth) (.ok ((ctx.record root bound).exploration root bound))
      (((ctx.record root bound).exploration root bound).gain ctx.config.transitiveEdges) := by
  unfold explore
  rw [hb]
  exact yields_exploreWithin hctx hroot

theorem yields_explore_unresolved (hctx : ctx.Lawful) (hroot : ctx.refs root = none) {depth : Int}
    (hb : Bound.ofInt? depth = some bound) :
    ctx.Yields (ctx.explore root depth) (.error (.unresolved root)) ∅ := by
  unfold explore
  rw [hb]
  exact yields_exploreWithin_unresolved hctx hroot

/-- A depth that is no bound is refused before anything is looked at. -/
theorem yields_explore_depthBelow {depth : Int} (hb : Bound.ofInt? depth = none) :
    ctx.Yields (ctx.explore root depth) (.error (.depthBelow depth)) ∅ := by
  unfold explore
  rw [hb]
  exact yields_throw _

/-- In a coherent session an exploration succeeds only with a depth that is a bound and from a root
    that can be described, and what it finds out is then the record of a walk. -/
theorem exists_record_of_run_explore (hctx : ctx.Lawful) {s : Session Unit} (hs : ctx.Coherent s)
    {depth : Int} {e : Exploration} (he : ((ctx.explore root depth).run s).1 = .ok e) :
    ∃ bound, Bound.ofInt? depth = some bound ∧ (∃ rs, ctx.refs root = some rs) ∧
      e = (ctx.record root bound).exploration root bound := by
  cases hb : Bound.ofInt? depth with
  | none =>
    rw [(yields_explore_depthBelow hb s hs).1] at he
    cases he
  | some bound =>
    cases href : ctx.refs root with
    | none =>
      rw [(yields_explore_unresolved hctx href hb s hs).1] at he
      cases he
    | some rs =>
      rw [(yields_explore hctx ⟨rs, href⟩ hb s hs).1] at he
      cases he
      exact ⟨bound, rfl, ⟨rs, rfl⟩, rfl⟩

end Context

end TypeAtlas
