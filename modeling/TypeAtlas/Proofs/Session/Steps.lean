import TypeAtlas.Proofs.Closure.Exploration

/-!
# What steps add to a session

Every step of a session adds a gain that the step alone determines, whatever was asked before, and
a step that fails on a type that it does not resolve adds nothing. `Settled` and `Sure` say so of
questions whose outcome is fixed as well, `Steady` and `Safe` of those that read the graph.

Main statements: `Context.settled_answer`, `Context.steady_answer` and `Context.Reached.coherent`.
-/

namespace TypeAtlas

/-- Whether the answer to a step tells what the session has seen: what is cached, or what stands in
    the dependency graph. -/
def Step.looksBack : Step → Bool
  | .isCached _ => true
  | .neighbourhood _ => true
  | .analyze _ _ => true
  | .graph _ => true
  | _ => false

namespace Context

variable {ctx : Context Unit}

/-! ## §1 Settled questions -/

section Rules

variable {α β : Type} {m : Run Unit α} {k : α → Run Unit β}

/-- The question has the same outcome and adds the same gain in all coherent sessions: none if it
    fails on a type that it does not resolve. -/
def Settled (ctx : Context Unit) (m : Run Unit α) : Prop :=
  ∃ r g, ctx.Yields m r g ∧ ((∃ n, r = .error (.unresolved n)) → g = ∅)

/-- The question has the same outcome and adds the same gain in all coherent sessions, and it does
    not fail on a type that it does not resolve. -/
def Sure (ctx : Context Unit) (m : Run Unit α) : Prop :=
  ∃ r g, ctx.Yields m r g ∧ ∀ n, r ≠ .error (.unresolved n)

/-- The question adds the same gain in all coherent sessions: none if it fails in one of them on a
    type that it does not resolve. -/
def Steady (ctx : Context Unit) (m : Run Unit α) : Prop :=
  ∃ g, ctx.Adds m g ∧
    ∀ s, ctx.Coherent s → (∃ n, (m.run s).1 = .error (.unresolved n)) → g = ∅

/-- The question adds the same gain in all coherent sessions, and it does not fail in any of them
    on a type that it does not resolve. -/
def Safe (ctx : Context Unit) (m : Run Unit α) : Prop :=
  ∃ g, ctx.Adds m g ∧ ∀ s, ctx.Coherent s → ∀ n, (m.run s).1 ≠ .error (.unresolved n)

theorem Sure.settled (hm : ctx.Sure m) : ctx.Settled m := by
  obtain ⟨r, g, hyields, hsure⟩ := hm
  refine ⟨r, g, hyields, ?_⟩
  intro hfail
  obtain ⟨n, hn⟩ := hfail
  exact absurd hn (hsure n)

theorem Settled.steady (hm : ctx.Settled m) : ctx.Steady m := by
  obtain ⟨r, g, hyields, hnone⟩ := hm
  refine ⟨g, hyields.adds, ?_⟩
  intro s hs hfail
  rw [(hyields s hs).1] at hfail
  exact hnone hfail

theorem Safe.steady (hm : ctx.Safe m) : ctx.Steady m := by
  obtain ⟨g, hadds, hsafe⟩ := hm
  refine ⟨g, hadds, ?_⟩
  intro s hs hfail
  obtain ⟨n, hn⟩ := hfail
  exact absurd hn (hsafe s hs n)

theorem Yields.sure {a : α} {g : Gain} (h : ctx.Yields m (.ok a) g) : ctx.Sure m :=
  ⟨.ok a, g, h, nofun⟩

/-- A question that fails and adds nothing. -/
theorem Yields.settled {f : Failure} (h : ctx.Yields m (.error f) ∅) : ctx.Settled m :=
  ⟨.error f, ∅, h, fun _ => rfl⟩

theorem sure_pure (a : α) : ctx.Sure (pure a) := (yields_pure a).sure

theorem settled_ask (question : Asking Unit α) : ctx.Settled (Run.ask question) :=
  ⟨_, ∅, yields_ask question, fun _ => rfl⟩

theorem sure_ask {question : Asking Unit α} (h : ∃ a, (question.run ()).1 = .ok a) :
    ctx.Sure (Run.ask question) := by
  obtain ⟨a, ha⟩ := h
  exact (yields_ask_of_eq ha).sure

theorem Sure.bind (hm : ctx.Sure m) (hk : ∀ a, ctx.Sure (k a)) : ctx.Sure (m >>= k) := by
  obtain ⟨r, g, hm, hsure⟩ := hm
  cases r with
  | ok a =>
    obtain ⟨r', h, hka, hsure'⟩ := hk a
    exact ⟨r', g ∪ h, hm.bind hka, hsure'⟩
  | error f =>
    -- what fails in the first question fails in both
    refine ⟨.error f, g, hm.bind_error, ?_⟩
    intro n hn
    cases hn
    exact hsure n rfl

theorem Settled.bind (hm : ctx.Settled m) (hk : ∀ a, ctx.Sure (k a)) :
    ctx.Settled (m >>= k) := by
  obtain ⟨r, g, hm, hnone⟩ := hm
  cases r with
  | ok a =>
    obtain ⟨r', h, hka, hsure⟩ := hk a
    refine ⟨r', g ∪ h, hm.bind hka, ?_⟩
    intro hfail
    obtain ⟨n, hn⟩ := hfail
    exact absurd hn (hsure n)
  | error f =>
    -- the first question fails, and adds nothing if it does so for not resolving a type
    refine ⟨.error f, g, hm.bind_error, ?_⟩
    intro hfail
    obtain ⟨n, hn⟩ := hfail
    cases hn
    exact hnone ⟨n, rfl⟩

/-- A question that tells what it does not resolve does not fail on it. -/
theorem Settled.sure_orUnresolved (hm : ctx.Settled m) : ctx.Sure (Run.orUnresolved m) := by
  obtain ⟨r, g, hm, -⟩ := hm
  refine ⟨Run.told r, g, hm.orUnresolved, ?_⟩
  intro n hn
  rcases r with (_ | _ | _) | _ <;> cases hn

/-- Questions asked for the things of a list, one after the other. -/
theorem sure_foldlM {γ : Type} {f : β → γ → Run Unit β} (hf : ∀ b c, ctx.Sure (f b c))
    (cs : List γ) (b : β) : ctx.Sure (cs.foldlM f b) := by
  induction cs generalizing b with
  | nil => exact sure_pure b
  | cons c cs ih =>
    rw [List.foldlM_cons]
    exact (hf b c).bind fun b' => ih b'

/-- Reading the graph makes an answer depend on the session, but it adds nothing. -/
theorem safe_reading (read : Graph → α) : ctx.Safe (Run.graph >>= fun gr => pure (read gr)) :=
  ⟨∅, adds_graph_bind fun _ => (yields_pure _).adds, fun _ _ _ => nofun⟩

theorem Sure.bind_safe (hm : ctx.Sure m) (hk : ∀ a, ctx.Safe (k a)) : ctx.Safe (m >>= k) := by
  obtain ⟨r, g, hm, hsure⟩ := hm
  cases r with
  | ok a =>
    obtain ⟨h, hka, hsafe⟩ := hk a
    refine ⟨g ∪ h, hm.bind_adds hka, ?_⟩
    intro s hs n
    obtain ⟨hval, hgain⟩ := hm s hs
    have hrun : m.run s = (.ok a, (m.run s).2) := Prod.ext hval rfl
    rw [Asking.run_bind_of_ok hrun]
    exact hsafe _ (hgain.coherent hs) n
  | error f =>
    -- the second question is not asked, and the first one fails on something else
    refine ⟨g, hm.bind_error.adds, ?_⟩
    intro s hs n hn
    rw [(hm.bind_error (k := k) s hs).1] at hn
    cases hn
    exact hsure n rfl

theorem Settled.bind_safe (hm : ctx.Settled m) (hk : ∀ a, ctx.Safe (k a)) :
    ctx.Steady (m >>= k) := by
  obtain ⟨r, g, hm, hnone⟩ := hm
  cases r with
  | ok a => exact (Sure.bind_safe hm.sure hk).steady
  | error f =>
    refine ⟨g, hm.bind_error.adds, ?_⟩
    intro s hs hfail
    obtain ⟨n, hn⟩ := hfail
    rw [(hm.bind_error (k := k) s hs).1] at hn
    cases hn
    exact hnone ⟨n, rfl⟩

/-- Giving the answer another form adds nothing. -/
theorem Steady.bind_pure (hm : ctx.Steady m) (form : α → β) :
    ctx.Steady (m >>= fun a => pure (form a)) := by
  obtain ⟨g, hadds, hnone⟩ := hm
  refine ⟨g, ?_, ?_⟩
  · intro s hs
    rw [Asking.run_map]
    exact hadds s hs
  · intro s hs hfail
    obtain ⟨n, hn⟩ := hfail
    rw [Asking.run_map] at hn
    -- the failure is that of the question itself
    exact hnone s hs ⟨n, Asking.map_eq_error_iff.1 hn⟩

end Rules

/-! ## §2 The questions of the library -/

theorem settled_directReferences (hctx : ctx.Lawful) (t : TypeName) :
    ctx.Settled (ctx.directReferences t) := by
  cases ht : ctx.refs t with
  | some rs => exact (yields_directReferences ht).sure.settled
  | none => exact (yields_directReferences_unresolved hctx ht).settled

/-- An exploration from a type that can be described fails on its depth alone. -/
theorem sure_explore (hctx : ctx.Lawful) {root : TypeName} (hroot : ∃ rs, ctx.refs root = some rs)
    (depth : Int) : ctx.Sure (ctx.explore root depth) := by
  cases hb : Bound.ofInt? depth with
  | none => exact ⟨_, ∅, yields_explore_depthBelow hb, nofun⟩
  | some bound => exact (yields_explore hctx hroot hb).sure

theorem settled_explore (hctx : ctx.Lawful) (root : TypeName) (depth : Int) :
    ctx.Settled (ctx.explore root depth) := by
  cases hroot : ctx.refs root with
  | some rs => exact (sure_explore hctx ⟨rs, hroot⟩ depth).settled
  | none =>
    cases hb : Bound.ofInt? depth with
    | none => exact (yields_explore_depthBelow hb).settled
    | some bound => exact (yields_explore_unresolved hctx hroot hb).settled

theorem settled_closure (hctx : ctx.Lawful) (root : TypeName) (depth : Option Int) :
    ctx.Settled (ctx.closure root depth) :=
  (settled_explore hctx root _).bind fun _ => sure_pure _

theorem sure_countTypesWith (modifier : String) (ts : List TypeName) :
    ctx.Sure (ctx.countTypesWith modifier ts) := by
  induction ts with
  | nil => exact sure_pure 0
  | cons t ts ih =>
    unfold countTypesWith
    apply (settled_ask _).sure_orUnresolved.bind
    intro answer
    cases answer with
    | ok ms => exact ih.bind fun _ => sure_pure _
    | error _ => exact ih.bind fun _ => sure_pure _

/-- The metrics of a type ask for its methods first, so they fail before anything is added. -/
theorem yields_metrics_unresolved (hctx : ctx.Lawful) {t : TypeName} (ht : ctx.refs t = none)
    (depth : Option Int) : ctx.Yields (ctx.metrics t depth) (.error (.unresolved t)) ∅ := by
  unfold metrics
  apply Yields.bind_error
  apply yields_ask_of_eq
  rw [hctx.mute t ht]

/-- The metrics of a type that can be described fail on the depth alone. -/
theorem sure_metrics (hctx : ctx.Lawful) {t : TypeName} {rs : NameSet} (ht : ctx.refs t = some rs)
    (depth : Option Int) : ctx.Sure (ctx.metrics t depth) := by
  unfold metrics
  obtain ⟨hmethods, hfields, hconstructors⟩ := hctx.members t rs ht
  refine (sure_ask hmethods).bind fun methods => ?_
  refine (sure_ask hfields).bind fun fields => ?_
  refine (yields_directReferences ht).sure.bind fun references => ?_
  refine Sure.bind ((sure_explore hctx ⟨rs, ht⟩ _).bind fun _ => sure_pure _) fun _ => ?_
  refine (sure_ask hconstructors).bind fun constructors => ?_
  refine (sure_countTypesWith _ _).bind fun interfaceTypes => ?_
  exact (sure_countTypesWith _ _).bind fun abstractTypes => sure_pure _

theorem settled_metrics (hctx : ctx.Lawful) (t : TypeName) (depth : Option Int) :
    ctx.Settled (ctx.metrics t depth) := by
  cases ht : ctx.refs t with
  | some rs => exact (sure_metrics hctx ht depth).settled
  | none => exact (yields_metrics_unresolved hctx ht depth).settled

theorem sure_registerRoots (names : List String) : ctx.Sure (ctx.registerRoots names) := by
  unfold registerRoots
  apply sure_foldlM
  intro acc n
  apply (settled_ask _).sure_orUnresolved.bind
  intro answer
  cases answer with
  | ok t =>
    by_cases ht : t ∈ acc.kept
    · -- a root already, under another name or the same
      simp only [if_pos ht]
      exact sure_pure acc
    · simp only [if_neg ht]
      exact (yields_addRoot t).sure.bind fun _ => sure_pure _
  | error _ => exact (yields_note _).sure.bind fun _ => sure_pure _

theorem sure_measureRoots (hctx : ctx.Lawful) (depth : Int) (roots : List TypeName) :
    ctx.Sure (ctx.measureRoots depth roots) := by
  unfold measureRoots
  apply sure_foldlM
  intro acc t
  apply (settled_metrics hctx t _).sure_orUnresolved.bind
  intro answer
  cases answer with
  | ok m => exact sure_pure _
  | error _ => exact (yields_note _).sure.bind fun _ => sure_pure _

theorem steady_neighbourhood (hctx : ctx.Lawful) (t : TypeName) :
    ctx.Steady (ctx.neighbourhood t) := by
  unfold neighbourhood
  exact (settled_directReferences hctx t).bind_safe fun _ => safe_reading _

theorem safe_analysis (hctx : ctx.Lawful) (names : List String) (depth : Option Int) :
    ctx.Safe (ctx.analysis names depth) := by
  unfold analysis
  apply (sure_registerRoots _).bind_safe
  intro roots
  apply (sure_measureRoots hctx _ _).bind_safe
  intro rows
  exact safe_reading _

theorem sure_methodArgCount (t : TypeName) (name : String) :
    ctx.Sure (ctx.methodArgCount t name) := by
  unfold methodArgCount
  apply (settled_ask _).sure_orUnresolved.bind
  intro answer
  cases answer with
  | ok ms => exact sure_pure _
  | error _ => exact sure_pure _

/-! ## §3 All steps -/

/-- A step on the graph adds the edges and the root that it names. -/
theorem exists_yields_after (step : GraphStep) :
    ∃ g, ctx.Yields (Run.updateGraph fun gr => gr.after step) (.ok ()) g := by
  -- a step that only reads the graph leaves it as it is
  have same : ∀ {f : Graph → Graph}, (∀ gr, f gr = gr) →
      ∃ g, ctx.Yields (Run.updateGraph f) (.ok ()) g := by
    intro f hf
    refine ⟨⟨∅, ∅, ∅⟩, ?_⟩
    apply yields_updateGraph
    · intro gr e
      rw [hf]
      exact (or_iff_left fun hmem => hmem).symm
    · intro gr t
      rw [hf]
      exact (or_iff_left fun hmem => hmem).symm
  cases step with
  | addEdge a b =>
    refine ⟨⟨∅, {e | a ≠ b ∧ e = ⟨a, b⟩}, ∅⟩, ?_⟩
    apply yields_updateGraph
    · intro gr e
      show e ∈ (gr.addEdge a b).edges ↔ _
      rw [Graph.mem_edges_addEdge, or_comm]
      exact Iff.rfl
    · intro gr t
      show t ∈ (gr.addEdge a b).roots ↔ _
      rw [Graph.roots_addEdge]
      exact (or_iff_left fun hmem => hmem).symm
  | addAll ts b => exact ⟨_, yields_addEdges _⟩
  | addRoot t => exact ⟨_, yields_addRoot t⟩
  | _ => exact same fun _ => rfl

theorem safe_graphStep (step : GraphStep) : ctx.Safe (ctx.answer (.graph step)) := by
  obtain ⟨g, hg⟩ : ∃ g, ctx.Yields (Run.updateGraph fun gr => gr.after step) (.ok ()) g :=
    exists_yields_after step
  have hadds : ∀ gr : Graph, ctx.Adds
      (Run.updateGraph (fun gr => gr.after step) >>= fun _ => pure (Answer.graph (gr.answer step)))
      g := by
    intro gr
    rw [← Gain.union_empty g]
    exact hg.bind_adds (yields_pure (Answer.graph (gr.answer step))).adds
  exact ⟨g, adds_graph_bind hadds, fun _ _ _ => nofun⟩

/-- A step that looks at neither cache nor graph has the same outcome and adds the same gain in all
    coherent sessions. -/
theorem settled_answer (hctx : ctx.Lawful) {step : Step} (hstep : step.looksBack = false) :
    ctx.Settled (ctx.answer step) := by
  -- each step asks one question of §2, or the provider, and gives the answer another form
  cases step with
  | isPrimitive t => exact (sure_pure _).settled
  | isHierarchyRoot n => exact (sure_pure _).settled
  | direct t => exact (settled_directReferences hctx t).bind fun _ => sure_pure _
  | closure t depth => exact (settled_closure hctx t depth).bind fun _ => sure_pure _
  | explore t depth => exact (settled_explore hctx t _).bind fun _ => sure_pure _
  | resolution name =>
    exact ((settled_ask _).bind fun _ => sure_pure _).bind fun _ => sure_pure _
  | tree t depth =>
    exact ((settled_explore hctx t _).bind fun _ => sure_pure _).bind fun _ => sure_pure _
  | metrics t depth => exact (settled_metrics hctx t depth).bind fun _ => sure_pure _
  | methodArgCount t name => exact ((sure_methodArgCount t name).bind fun _ => sure_pure _).settled
  | isCached t => cases hstep
  | neighbourhood t => cases hstep
  | analyze names depth => cases hstep
  | graph step => cases hstep
  | _ => exact (settled_ask _).bind fun _ => sure_pure _

/-- A step adds the same gain in all coherent sessions, and none if it fails on a type that it does
    not resolve. -/
theorem steady_answer (hctx : ctx.Lawful) (step : Step) : ctx.Steady (ctx.answer step) := by
  by_cases hstep : step.looksBack = false
  · exact (settled_answer hctx hstep).steady
  · -- four steps tell what the session has seen
    cases step with
    | isCached t => exact ⟨∅, fun s _ => .of_eq rfl rfl, fun _ _ _ => rfl⟩
    | neighbourhood t => exact (steady_neighbourhood hctx t).bind_pure _
    | analyze names depth => exact (safe_analysis hctx names depth).steady.bind_pure _
    | graph step => exact (safe_graphStep step).steady
    | _ => exact absurd rfl hstep

/-! ## §4 Reached sessions -/

theorem coherent_fresh : ctx.Coherent Session.fresh where
  known t rs h := by cases h
  drawn t rs h := by cases h

/-- Steps keep a session coherent. -/
theorem Coherent.after (hctx : ctx.Lawful) {s : Session Unit} (hs : ctx.Coherent s)
    (steps : List Step) : ctx.Coherent (ctx.after s steps) := by
  induction steps generalizing s with
  | nil => exact hs
  | cons step steps ih =>
    obtain ⟨g, hadds, -⟩ := steady_answer hctx step
    exact ih ((hadds s hs).coherent hs)

theorem Reached.coherent (hctx : ctx.Lawful) {s : Session Unit} (hs : ctx.Reached s) :
    ctx.Coherent s := by
  obtain ⟨steps, rfl⟩ := hs
  exact coherent_fresh.after hctx steps

end Context

end TypeAtlas
