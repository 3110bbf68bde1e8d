import TypeAtlas.Proofs.Closure.Exploration
import TypeAtlas.Proofs.Session.Lockstep

/-!
# What is on record

Whatever the provider, and whatever it remembers: what a session has on record stays there, a walk
within the session is the walk over what it leaves on record, and it draws the references of the
types that it expands. So two questions of one session speak of the same references, although the
provider may answer in another way the next time.

Main statement: `Context.exists_finished_of_run_explore`.
-/

namespace TypeAtlas

/-- The direct references that a session has on record. -/
def Session.refs {σ : Type} (s : Session σ) : Refs := s.descriptors.get?

namespace Context

variable {σ : Type} {ctx : Context σ}

/-! ## §1 Direct references -/

/-- What asking for the direct references of a type comes to, and the session after it. -/
inductive Tells (ctx : Context σ) (t : TypeName) (s : Session σ) :
    Except Failure NameSet → Session σ → Prop where
  /-- They are on record. -/
  | recorded {rs : NameSet} : s.refs t = some rs → Tells ctx t s (.ok rs) s
  /-- They are computed and put on record. -/
  | computed (ns : List TypeName) (x : σ) : s.refs t = none →
      Tells ctx t s (.ok (ctx.keepReferences t ns))
        (Session.learn { s with memory := x, log := s.log ++ [.computing t] } t
          (ctx.keepReferences t ns))
  /-- They cannot be computed. -/
  | failed (f : Failure) (x : σ) : s.refs t = none →
      Tells ctx t s (.error f) { s with memory := x, log := s.log ++ [.computing t] }

/-- Direct references that are not on record are read off the description of the type. -/
theorem run_directReferences_of_mentioned {t : TypeName} {s : Session σ} {ns : List TypeName}
    {x : σ} (hnone : s.descriptors.get? t = none)
    (hrun : (ctx.mentioned t).run s.memory = (.ok ns, x)) :
    (ctx.directReferences t).run s = (.ok (ctx.keepReferences t ns),
      Session.learn { s with memory := x, log := s.log ++ [.computing t] } t
        (ctx.keepReferences t ns)) := by
  have hask : (Run.ask (ctx.mentioned t)).run { s with log := s.log ++ [.computing t] } =
      (.ok ns, { s with memory := x, log := s.log ++ [.computing t] }) := by
    rw [Run.run_ask, hrun]
  unfold directReferences
  rw [Asking.run_bind_of_ok (Run.run_get s), hnone]
  simp only
  rw [Asking.run_bind_of_ok (Run.run_note _ s), Asking.run_bind_of_ok hask]
  rfl

/-- A type that cannot be described has no direct references. -/
theorem run_directReferences_of_error {t : TypeName} {s : Session σ} {f : Failure} {x : σ}
    (hnone : s.descriptors.get? t = none)
    (hrun : (ctx.mentioned t).run s.memory = (.error f, x)) :
    (ctx.directReferences t).run s =
      (.error f, { s with memory := x, log := s.log ++ [.computing t] }) := by
  have hask : (Run.ask (ctx.mentioned t)).run { s with log := s.log ++ [.computing t] } =
      (.error f, { s with memory := x, log := s.log ++ [.computing t] }) := by
    rw [Run.run_ask, hrun]
  unfold directReferences
  rw [Asking.run_bind_of_ok (Run.run_get s), hnone]
  simp only
  rw [Asking.run_bind_of_ok (Run.run_note _ s), Asking.run_bind_of_error hask]

theorem tells_directReferences (ctx : Context σ) (t : TypeName) (s : Session σ) :
    ctx.Tells t s ((ctx.directReferences t).run s).1 ((ctx.directReferences t).run s).2 := by
  cases hget : s.descriptors.get? t with
  | some rs =>
    unfold directReferences
    rw [Asking.run_bind_of_ok (Run.run_get s), hget]
    exact .recorded hget
  | none =>
    rcases hanswer : (ctx.mentioned t).run s.memory with ⟨f | ns, x⟩
    · rw [run_directReferences_of_error hget hanswer]
      exact .failed f x hget
    · rw [run_directReferences_of_mentioned hget hanswer]
      exact .computed ns x hget

/-- What a question about the type `t` may change: at most `t` is put on record, and its references
    are drawn then. -/
structure AddsOnly (t : TypeName) (s s' : Session σ) : Prop where
  others : ∀ u, u ≠ t → s'.refs u = s.refs u
  kept : ∀ rs, s.refs t = some rs → s'.refs t = some rs
  edges_kept : ∀ a ∈ s.graph.edges, a ∈ s'.graph.edges
  edges_drawn : ∀ a ∈ s'.graph.edges, a ∈ s.graph.edges ∨
    (a.source = t ∧ a.target ≠ t ∧ s'.refs.Leads t a.target)

namespace AddsOnly

variable {t : TypeName} {s s' : Session σ}

/-- A session with the same record and the same graph. -/
theorem of_eq (hd : s'.descriptors = s.descriptors) (hg : s'.graph = s.graph) :
    AddsOnly t s s' where
  others _ _ := by rw [Session.refs, hd, Session.refs]
  kept _ h := by rwa [Session.refs, hd]
  edges_kept _ h := by rwa [hg]
  edges_drawn _ h := by rw [hg] at h; exact .inl h

theorem keeps (h : AddsOnly t s s') {u : TypeName} {rs : NameSet} (hu : s.refs u = some rs) :
    s'.refs u = some rs := by
  by_cases heq : u = t
  · subst heq
    exact h.kept rs hu
  · rw [h.others u heq]
    exact hu

end AddsOnly

/-- Asking for direct references puts them on record, unless that fails. -/
theorem Tells.addsOnly {t : TypeName} {s s' : Session σ} {r : Except Failure NameSet}
    (h : ctx.Tells t s r s') : AddsOnly t s s' ∧ s'.refs t = r.toOption := by
  cases h with
  | recorded hrs => exact ⟨.of_eq rfl rfl, hrs⟩
  | failed f x hnone => exact ⟨.of_eq rfl rfl, hnone⟩
  | computed ns x hnone =>
    -- only the record of `t` is new, and only edges from `t`
    have hlearned : ∀ u, (Session.learn { s with memory := x, log := s.log ++ [.computing t] } t
        (ctx.keepReferences t ns)).refs u =
        if u = t then some (ctx.keepReferences t ns) else s.refs u := fun u => OrdMap.get?_insert
    refine ⟨{ others := ?others, kept := ?kept, edges_kept := ?edges_kept,
              edges_drawn := ?edges_drawn }, ?told⟩
    case others =>
      intro u hu
      rw [hlearned, if_neg hu]
    case kept =>
      intro rs hrs
      cases hnone.symm.trans hrs
    case edges_kept => exact fun a ha => Graph.mem_edges_addAll.2 (.inr ha)
    case edges_drawn =>
      intro a ha
      rcases Graph.mem_edges_addAll.1 ha with ⟨htarget, hne, hsource⟩ | hbefore
      · refine .inr ⟨hsource, hne, ctx.keepReferences t ns, ?_, htarget⟩
        rw [hlearned, if_pos rfl]
      · exact .inl hbefore
    case told => rw [hlearned, if_pos rfl]; rfl

/-! ## §2 Walks -/

/-- What a step of a walk within its bound makes of the outcome of asking for direct references. -/
theorem run_walkStep_of_admits {root : TypeName} {bound : Bound} {w : Walk} {t : TypeName} {k : Nat}
    (hk : bound.admits k = true) (s : Session σ) :
    (ctx.walkStep root bound w t k).run s =
      match (ctx.directReferences t).run s with
      | (.ok rs, s) => (.ok (w.expand t k rs), s)
      | (.error (.unresolved n), s) =>
        if t = root then (.error (.unresolved n), s)
        else (.ok (w.giveUp t), { s with log := s.log ++ [.skippingNeighbour t (w.parent? t)] })
      | (.error f, s) => (.error f, s) := by
  unfold walkStep
  rw [if_pos hk]
  have hrun := Run.run_orUnresolved (ctx.directReferences t) s
  rcases hr : (ctx.directReferences t).run s with ⟨(_ | n | _) | rs, s₁⟩ <;> rw [hr] at hrun
  case error.unresolved =>
    rw [Asking.run_bind_of_ok hrun]
    by_cases hroot : t = root
    · simp only [if_pos hroot]
      rfl
    · simp only [if_neg hroot]
      exact Asking.run_bind_of_ok (Run.run_note _ s₁)
  case ok => exact Asking.run_bind_of_ok hrun
  all_goals exact Asking.run_bind_of_error hrun

/-- A step of a walk within a session is one over what it leaves on record. It adds to the session
    only what it says about the type that it looks at, and draws no edge for one that is out of
    bounds. -/
theorem run_walkStep {root : TypeName} {bound : Bound} {w w' : Walk} {t : TypeName} {k : Nat}
    {s s' : Session σ} (h : (ctx.walkStep root bound w t k).run s = (.ok w', s')) :
    w' = w.look s'.refs bound t k ∧ AddsOnly t s s' ∧
      (bound.admits k = true ∨ s'.graph = s.graph) := by
  unfold Walk.look
  by_cases hk : bound.admits k = true
  · rw [run_walkStep_of_admits hk] at h
    rw [if_pos hk]
    obtain ⟨hadds, htold⟩ := (ctx.tells_directReferences t s).addsOnly
    rcases hr : (ctx.directReferences t).run s with ⟨(_ | n | _) | rs, s₁⟩ <;>
      rw [hr] at h hadds htold
    case error.unresolved =>
      by_cases hroot : t = root
      · simp only [if_pos hroot] at h
        cases h
      · simp only [if_neg hroot] at h
        cases h
        -- noting that the type is skipped changes neither record nor graph
        have hrefs : Session.refs { s₁ with log := s₁.log ++
            [.skippingNeighbour t (w.parent? t)] } t = none := htold
        rw [hrefs]
        exact ⟨rfl, ⟨hadds.others, hadds.kept, hadds.edges_kept, hadds.edges_drawn⟩, .inl hk⟩
    case ok =>
      cases h
      rw [htold]
      exact ⟨rfl, hadds, .inl hk⟩
    all_goals cases h
  · unfold walkStep at h
    rw [if_neg hk] at h ⊢
    cases h
    exact ⟨rfl, .of_eq rfl rfl, .inr rfl⟩

end Context

namespace Walk

/-- The types found are those looked at, and after them those still queued, none of them twice. -/
structure Divided (done : List (TypeName × Nat)) (w : Walk) : Prop where
  split : w.depths = done ++ w.queue
  distinct : (w.depths.map Prod.fst).Nodup

/-- Expanding the next type of the queue. -/
theorem Divided.expand {done rest : List (TypeName × Nat)} {w : Walk} (h : w.Divided done)
    {t : TypeName} {k : Nat} (hq : w.queue = (t, k) :: rest) (rs : NameSet) :
    (w.expand t k rs).Divided (done ++ [(t, k)]) := by
  refine ⟨?_, nodup_expand h.distinct t k rs⟩
  rw [expand_eq, h.split, hq, List.tail_cons, List.append_assoc, List.append_assoc]
  rfl

/-- Leaving the next type of the queue behind without finding any other. -/
theorem Divided.skip {done rest : List (TypeName × Nat)} {w w' : Walk} (h : w.Divided done)
    {t : TypeName} {k : Nat} (hq : w.queue = (t, k) :: rest) (hdepths : w'.depths = w.depths)
    (hqueue : w'.queue = w.queue.tail) : w'.Divided (done ++ [(t, k)]) := by
  refine ⟨?_, ?_⟩
  · rw [hdepths, hqueue, h.split, hq, List.tail_cons, List.append_assoc]
    rfl
  · rw [hdepths]
    exact h.distinct

theorem Divided.look {done rest : List (TypeName × Nat)} {w : Walk} (h : w.Divided done)
    {t : TypeName} {k : Nat} (hq : w.queue = (t, k) :: rest) (refs : Refs) (bound : Bound) :
    (w.look refs bound t k).Divided (done ++ [(t, k)]) := by
  unfold Walk.look
  split
  case isTrue =>
    split
    case h_1 rs _ => exact h.expand hq rs
    case h_2 => exact h.skip hq rfl rfl
  case isFalse => exact h.skip hq rfl rfl

/-- A type that is looked at next has not been looked at before. -/
theorem Divided.ne_of_mem {done rest : List (TypeName × Nat)} {w : Walk} (h : w.Divided done)
    {t : TypeName} {k : Nat} (hq : w.queue = (t, k) :: rest) : ∀ e ∈ done, e.1 ≠ t := by
  intro e he heq
  have hdistinct := h.distinct
  rw [h.split, hq, List.map_append, List.map_cons] at hdistinct
  exact (List.disjoint_of_nodup_append hdistinct) (List.mem_map_of_mem he)
    (heq ▸ List.mem_cons_self)

/-- A type that has been expanded stays so. -/
theorem expands_run {refs : Refs} {bound : Bound} {w : Walk} {t : TypeName}
    (ht : w.adjacency.expands t = true) (fuel : Nat) :
    (w.run refs bound fuel).adjacency.expands t = true := by
  induction fuel generalizing w with
  | zero => exact ht
  | succ fuel ih =>
    unfold Walk.run
    split
    case h_1 => exact ht
    case h_2 => exact ih (expands_look.2 (.inl ht))

end Walk

namespace Context

variable {σ : Type} {ctx : Context σ}

/-- What a walk adds to a session: the references of types that it had not looked at, drawn for
    those that it expanded. -/
structure WalkAdds (done : List (TypeName × Nat)) (w : Walk) (s s' : Session σ) : Prop where
  others : ∀ e ∈ done, s'.refs e.1 = s.refs e.1
  kept : ∀ t rs, s.refs t = some rs → s'.refs t = some rs
  edges_kept : ∀ a ∈ s.graph.edges, a ∈ s'.graph.edges
  edges_drawn : ∀ a ∈ s'.graph.edges, a ∈ s.graph.edges ∨
    (w.adjacency.expands a.source = true ∧ a.target ≠ a.source ∧ s'.refs.Leads a.source a.target)

theorem WalkAdds.refl (done : List (TypeName × Nat)) (w : Walk) (s : Session σ) :
    WalkAdds done w s s where
  others _ _ := rfl
  kept _ _ hrs := hrs
  edges_kept _ ha := ha
  edges_drawn _ ha := .inl ha

/-- What a walk adds after a step over the type `t`, and what the step adds, is what the walk adds
    with that step. If the step draws edges, then `t` is expanded. -/
theorem WalkAdds.after_step {done : List (TypeName × Nat)} {w : Walk} {t : TypeName} {k : Nat}
    {s s₁ s' : Session σ} (hadds : AddsOnly t s s₁) (hlater : WalkAdds (done ++ [(t, k)]) w s₁ s')
    (hnew : ∀ e ∈ done, e.1 ≠ t)
    (hexpands : ∀ rs, s₁.refs t = some rs →
      w.adjacency.expands t = true ∨ s₁.graph = s.graph) : WalkAdds done w s s' := by
  have ht : s'.refs t = s₁.refs t :=
    hlater.others (t, k) (List.mem_append_right _ (List.mem_singleton_self _))
  refine { others := ?others, kept := fun u rs hu => hlater.kept u rs (hadds.keeps hu),
           edges_kept := fun a ha => hlater.edges_kept a (hadds.edges_kept a ha),
           edges_drawn := ?edges_drawn }
  case others =>
    intro e he
    rw [hlater.others e (List.mem_append_left _ he), hadds.others e.1 (hnew e he)]
  case edges_drawn =>
    intro a ha
    rcases hlater.edges_drawn a ha with ha | hdrawn
    · -- the edge was there after the step, so it is an old one, or the step drew it
      rcases hadds.edges_drawn a ha with hbefore | ⟨hsource, hne, rs, hrs, htarget⟩
      · exact .inl hbefore
      · rcases hexpands rs hrs with hexpanded | hgraph
        · rw [hsource]
          exact .inr ⟨hexpanded, hne, rs, by rw [ht, hrs], htarget⟩
        · exact .inl (hgraph ▸ ha)
    · exact .inr hdrawn

/-- A walk within a session is one over what it leaves on record. Each type is looked at once, so
    what a step finds on record is not changed by a later one. -/
theorem run_walk {root : TypeName} {bound : Bound} {fuel : Nat} {done : List (TypeName × Nat)}
    {w w' : Walk} (hw : w.Divided done) {s s' : Session σ}
    (h : (ctx.walk root bound fuel w).run s = (.ok w', s')) :
    w' = w.run s'.refs bound fuel ∧ WalkAdds done w' s s' := by
  induction fuel generalizing done w s with
  | zero =>
    cases h
    exact ⟨rfl, .refl _ _ _⟩
  | succ fuel ih =>
    unfold walk at h
    unfold Walk.run
    cases hq : w.queue with
    | nil =>
      rw [hq] at h
      cases h
      exact ⟨rfl, .refl _ _ _⟩
    | cons e rest =>
      obtain ⟨t, k⟩ := e
      rw [hq] at h
      show w' = (w.look s'.refs bound t k).run s'.refs bound fuel ∧ _
      rcases hstep : (ctx.walkStep root bound w t k).run s with ⟨f | w₁, s₁⟩
      · have hfails : (ctx.walkStep root bound w t k >>= ctx.walk root bound fuel).run s =
            (.error f, s₁) := Asking.run_bind_of_error hstep
        cases h.symm.trans hfails
      have hrest : (ctx.walk root bound fuel w₁).run s₁ = (.ok w', s') :=
        (Asking.run_bind_of_ok hstep).symm.trans h
      obtain ⟨hlook, hadds, hbound⟩ := run_walkStep hstep
      have hdivided : w₁.Divided (done ++ [(t, k)]) := by
        rw [hlook]
        exact hw.look hq s₁.refs bound
      obtain ⟨hrun, hlater⟩ := ih hdivided hrest
      -- what was found on record for `t` is so to the end
      have ht : s'.refs t = s₁.refs t :=
        hlater.others (t, k) (List.mem_append_right _ (List.mem_singleton_self _))
      have hsame : w.look s'.refs bound t k = w₁ := by
        rw [hlook]
        unfold Walk.look
        rw [ht]
      rw [hsame]
      refine ⟨hrun, hlater.after_step hadds (hw.ne_of_mem hq) fun rs hrs => hbound.imp_left ?_⟩
      intro hk
      rw [hrun, hlook]
      exact Walk.expands_run (Walk.expands_look.2 (.inr ⟨rfl, hk, rs, hrs⟩)) fuel

/-! ## §3 Explorations -/

/-- The names on record after a question are no more than the capacity told before it, so no walk of
    the question was cut short. -/
def Suffices (ctx : Context σ) (s s' : Session σ) : Prop :=
  ∃ names : List TypeName, names.length ≤ ctx.provider.capacity s.memory ∧
    ∀ u t, s'.refs.Leads u t → t ∈ names

/-- The exploration `e` is the record of a walk over what it leaves on record. What was on record
    before is so still. The edges drawn lead from expanded types to their references or, if the
    settings ask for it, to what they reach over the record. -/
structure Explored (ctx : Context σ) (root : TypeName) (d : Int) (e : Exploration)
    (s s' : Session σ) : Prop where
  walked : ∃ b w, Bound.ofInt? d = some b ∧ Walk.Finished s'.refs root b w ∧
    e = w.exploration root b
  kept : ∀ t rs, s.refs t = some rs → s'.refs t = some rs
  edges_kept : ∀ a ∈ s.graph.edges, a ∈ s'.graph.edges
  edges_drawn : ∀ a ∈ s'.graph.edges, a ∈ s.graph.edges ∨
    (e.adjacency.expands a.source = true ∧ a.target ≠ a.source ∧
      (s'.refs.Leads a.source a.target ∨
        (ctx.config.transitiveEdges = true ∧ a.target ∈ reachable e.adjacency a.source)))
  reach_drawn : ctx.config.transitiveEdges = true → ∀ a : Edge,
    e.adjacency.expands a.source = true → a.target ∈ reachable e.adjacency a.source →
    a ∈ s'.graph.edges

/-- What an exploration does after its walk. -/
theorem run_drawing (ctx : Context σ) (reached : List Edge) (e : Exploration) (s : Session σ) :
    (if ctx.config.transitiveEdges = true then
        Run.updateGraph (fun g => g.addEdges reached) >>= fun _ => pure e
      else pure e : Run σ Exploration).run s =
      (.ok e, { s with graph := ctx.drawn s.graph reached }) := by
  unfold drawn
  cases ctx.config.transitiveEdges <;> rfl

theorem mem_edges_drawn {g : Graph} {reached : List Edge} {a : Edge} :
    a ∈ (ctx.drawn g reached).edges ↔ a ∈ g.edges ∨
      (ctx.config.transitiveEdges = true ∧ a ∈ reached ∧ a.target ≠ a.source) := by
  unfold drawn
  split
  case isTrue htrans =>
    rw [Graph.mem_edges_addEdges, or_comm]
    simp only [htrans, true_and]
  case isFalse htrans => simp only [htrans, false_and, or_false, Bool.false_eq_true]

theorem explored_of_run_explore {root : TypeName} {d : Int} {e : Exploration} {s s' : Session σ}
    (h : (ctx.explore root d).run s = (.ok e, s')) (hnames : ctx.Suffices s s') :
    ctx.Explored root d e s s' := by
  unfold explore at h
  cases hb : Bound.ofInt? d with
  | none =>
    rw [hb] at h
    cases h
  | some b =>
    rw [hb] at h
    unfold exploreWithin at h
    simp only at h
    rw [Asking.run_bind_of_ok (Run.run_get s)] at h
    rcases hwalk : (ctx.walk root b (ctx.provider.capacity s.memory + 2) (.start root)).run s with
      ⟨f | w, s₁⟩
    · rw [Asking.run_bind_of_error hwalk] at h
      cases h
    rw [Asking.run_bind_of_ok hwalk, run_drawing] at h
    cases h
    have hdivided : (Walk.start root).Divided [] := ⟨rfl, List.nodup_singleton root⟩
    obtain ⟨hrun, hadds⟩ := run_walk hdivided hwalk
    -- drawing changes nothing on record, so the walk is one over what the session ends with
    obtain ⟨names, hlength, hleads⟩ := hnames
    have hfinished : Walk.Finished s₁.refs root b w := by
      rw [hrun]
      have hroot : root ∈ root :: names := List.mem_cons_self
      apply Walk.finished_run hroot
      · exact fun u t hlead => List.mem_cons_of_mem root (hleads u t hlead)
      · rw [List.length_cons]
        omega
    refine
      { walked := ⟨b, w, hb, hfinished, rfl⟩, kept := hadds.kept, edges_kept := ?edges_kept
        edges_drawn := ?edges_drawn, reach_drawn := ?reach_drawn }
    case edges_kept => exact fun a ha => mem_edges_drawn.2 (.inl (hadds.edges_kept a ha))
    case edges_drawn =>
      intro a ha
      rcases mem_edges_drawn.1 ha with ha | ⟨htrans, ha, hne⟩
      · exact (hadds.edges_drawn a ha).imp_right fun hdrawn =>
          ⟨hdrawn.1, hdrawn.2.1, .inl hdrawn.2.2⟩
      · obtain ⟨hexpands, hreach⟩ := mem_reachedEdges.1 ha
        exact .inr ⟨hexpands, hne, .inr ⟨htrans, hreach⟩⟩
    case reach_drawn =>
      intro htrans a hexpands hreach
      exact mem_edges_drawn.2 (.inr ⟨htrans, mem_reachedEdges.2 ⟨hexpands, hreach⟩,
        (mem_reachable_iff.1 hreach).1⟩)

end Context

end TypeAtlas
