import TypeAtlas.Proofs.Analysis.Gains

/-!
# Invariants of sessions

A property of cache and graph that direct references, explorations and new roots keep is kept by
every step that does not record edges by itself. `Run.Keeps` says that a question keeps a property,
and composes along the question; `Context.Invariant.after` carries a property along any sequence of
such steps, whatever their outcomes.

A property may be kept by the questions about some types only. `Context.InvariantOn.after` carries
it along the steps that ask about no other types, and `Context.invariantOn_of_gains` shows that it
is kept from what such questions add.
-/

namespace TypeAtlas

/-! ## §1 What questions return -/

namespace Run

variable {P : Session Unit → Prop} {α β γ : Type} {m : Run Unit α} {k : α → Run Unit β}

/-- What the question is answered with has the property `Q`. -/
def Returns (Q : α → Prop) (m : Run Unit α) : Prop := ∀ s a, (m.run s).1 = .ok a → Q a

theorem returns_pure {Q : α → Prop} {a : α} (ha : Q a) : Returns Q (pure a) := by
  intro s a' h
  cases h
  exact ha

theorem Returns.bind {Q : α → Prop} {R : β → Prop} (hm : Returns Q m)
    (hk : ∀ a, Q a → Returns R (k a)) : Returns R (m >>= k) := by
  intro s b h
  obtain ⟨a, s', hrun, hb⟩ := Asking.exists_of_run_bind_eq_ok h
  exact hk a (hm s a (by rw [hrun])) s' b hb

/-- What the first question is answered with need not matter. -/
theorem returns_bind {R : β → Prop} (hk : ∀ a, Returns R (k a)) : Returns R (m >>= k) :=
  Returns.bind (Q := fun _ => True) (fun _ _ _ => trivial) fun a _ => hk a

theorem returns_foldlM {I : β → Prop} {f : β → γ → Run Unit β} {cs : List γ}
    (hf : ∀ b, ∀ c ∈ cs, I b → Returns I (f b c)) {b : β} (hb : I b) :
    Returns I (cs.foldlM f b) := by
  induction cs generalizing b with
  | nil => exact returns_pure hb
  | cons c cs ih =>
    rw [List.foldlM_cons]
    obtain ⟨hc, hcs⟩ := forall_and.1 fun b => List.forall_mem_cons.1 (hf b)
    exact (hc b hb).bind fun b' hb' => ih hcs hb'

/-- The provider answers the same in every session. -/
theorem returns_orUnresolved_ask (question : Asking Unit α) :
    Returns (fun answer => ∀ a, answer = .ok a → (question.run ()).1 = .ok a)
      (orUnresolved (ask question)) := by
  intro s answer h a ha
  subst ha
  -- only an answer of the provider is told as one, whatever it fails with
  rw [run_orUnresolved, run_ask] at h
  rcases hq : question.run () with ⟨(_ | _ | _) | a', s'⟩ <;> rw [hq] at h <;> cases h
  rfl

/-! ## §2 Questions that keep a property -/

/-- The question leads from every session with the property to one with it, even if it fails. -/
def Keeps (P : Session Unit → Prop) (m : Run Unit α) : Prop := ∀ s, P s → P (m.run s).2

theorem keeps_pure (a : α) : Keeps P (pure a) := fun _ hs => hs

theorem Keeps.bind_of_returns {Q : α → Prop} (hm : Keeps P m) (hval : Returns Q m)
    (hk : ∀ a, Q a → Keeps P (k a)) : Keeps P (m >>= k) := by
  intro s hs
  have hs' := hm s hs
  rcases hrun : m.run s with ⟨f | a, s'⟩
  · -- the first question fails, and the second one is not asked
    rw [hrun] at hs'
    rw [Asking.run_bind_of_error hrun]
    exact hs'
  · rw [hrun] at hs'
    rw [Asking.run_bind_of_ok hrun]
    exact hk a (hval s a (by rw [hrun])) s' hs'

theorem Keeps.bind (hm : Keeps P m) (hk : ∀ a, Keeps P (k a)) : Keeps P (m >>= k) :=
  hm.bind_of_returns (Q := fun _ => True) (fun _ _ _ => trivial) fun a _ => hk a

theorem Keeps.orUnresolved (hm : Keeps P m) : Keeps P (orUnresolved m) := by
  intro s hs
  rw [run_orUnresolved]
  exact hm s hs

theorem keeps_foldlM {f : β → γ → Run Unit β} {cs : List γ}
    (hf : ∀ b, ∀ c ∈ cs, Keeps P (f b c)) (b : β) : Keeps P (cs.foldlM f b) := by
  induction cs generalizing b with
  | nil => exact keeps_pure b
  | cons c cs ih =>
    rw [List.foldlM_cons]
    obtain ⟨hc, hcs⟩ := forall_and.1 fun b => List.forall_mem_cons.1 (hf b)
    exact (hc b).bind fun b' => ih hcs b'

end Run

/-! ## §3 Steps that keep a property -/

/-- Whether a step records edges in the dependency graph by itself. -/
def Step.recordsEdges : Step → Bool
  | .graph (.addEdge _ _) => true
  | .graph (.addAll _ _) => true
  | _ => false

/-- The step asks about the type, or it is an analysis that has the name among those of its
    roots. -/
def Step.Asks : Step → TypeName → Prop
  | .direct t, u => u = t
  | .neighbourhood t, u => u = t
  | .closure t _, u => u = t
  | .explore t _, u => u = t
  | .tree t _, u => u = t
  | .metrics t _, u => u = t
  | .analyze names _, u => ∃ n ∈ names, Text.strip n = u
  | _, _ => False

namespace Context

/-- The roots that are registered are types that the names resolve to. -/
theorem returns_registerRoots {ctx : Context Unit} (names : List String) :
    Run.Returns
      (fun roots => ∀ t ∈ roots.kept, ∃ n ∈ names, ((ctx.provider.resolve n).run ()).1 = .ok t)
      (ctx.registerRoots names) := by
  unfold registerRoots
  refine Run.returns_foldlM ?_ nofun
  intro acc n hn hacc
  refine (Run.returns_orUnresolved_ask _).bind fun answer hanswer => ?_
  cases answer with
  | ok t =>
    by_cases ht : t ∈ acc.kept
    · simp only [if_pos ht]
      exact Run.returns_pure hacc
    · -- a root from now on, besides those kept before
      simp only [if_neg ht]
      refine Run.returns_bind fun _ => Run.returns_pure ?_
      intro u hu
      rcases List.mem_append.1 hu with hu | hu
      · exact hacc u hu
      · cases List.mem_singleton.1 hu
        exact ⟨n, hn, hanswer t rfl⟩
  | error _ => exact Run.returns_bind fun _ => Run.returns_pure hacc

/-- A property of the cache and the graph of sessions that is kept wherever these are written. -/
structure Invariant (ctx : Context Unit) (P : Session Unit → Prop) : Prop where
  /-- The property is one of cache and graph alone. -/
  aside : ∀ s s' : Session Unit, s'.descriptors = s.descriptors → s'.graph = s.graph → P s → P s'
  /-- Asking for direct references keeps it. -/
  direct : ∀ t, Run.Keeps P (ctx.directReferences t)
  /-- Exploring keeps it. -/
  explore : ∀ root depth, Run.Keeps P (ctx.explore root depth)
  /-- Registering a root keeps it. -/
  root : ∀ t, Run.Keeps P (Run.updateGraph fun g => g.addRoot t)

/-- A property of the cache and the graph of sessions that is kept wherever these are written on
    account of certain types, the asked ones. -/
structure InvariantOn (ctx : Context Unit) (Asked : TypeName → Prop) (P : Session Unit → Prop) :
    Prop where
  /-- The property is one of cache and graph alone. -/
  aside : ∀ s s' : Session Unit, s'.descriptors = s.descriptors → s'.graph = s.graph → P s → P s'
  /-- Asking for the direct references of an asked type keeps it. -/
  direct : ∀ t, Asked t → Run.Keeps P (ctx.directReferences t)
  /-- Exploring from an asked type keeps it. -/
  explore : ∀ root depth, Asked root → Run.Keeps P (ctx.explore root depth)
  /-- Registering a root keeps it. -/
  root : ∀ t, Run.Keeps P (Run.updateGraph fun g => g.addRoot t)
  /-- An asked name stands for an asked type. -/
  resolve : ∀ n t, Asked n → ((ctx.provider.resolve n).run ()).1 = .ok t → Asked t

namespace InvariantOn

open Run (Keeps keeps_pure keeps_foldlM)

variable {ctx : Context Unit} {Asked : TypeName → Prop} {P : Session Unit → Prop} {α : Type}

theorem ask (h : ctx.InvariantOn Asked P) (question : Asking Unit α) : Keeps P (Run.ask question) :=
  fun s hs => h.aside s _ rfl rfl hs

theorem note (h : ctx.InvariantOn Asked P) (n : Notice) : Keeps P (Run.note n) :=
  fun s hs => h.aside s _ rfl rfl hs

/-- Reading the graph changes nothing. -/
theorem reading (read : Graph → α) : Keeps P (Run.graph >>= fun g => pure (read g)) :=
  Keeps.bind (fun _ hs => hs) fun _ => keeps_pure _

theorem closure (h : ctx.InvariantOn Asked P) {root : TypeName} (hroot : Asked root)
    (depth : Option Int) : Keeps P (ctx.closure root depth) :=
  (h.explore root _ hroot).bind fun _ => keeps_pure _

theorem countTypesWith (h : ctx.InvariantOn Asked P) (modifier : String) (ts : List TypeName) :
    Keeps P (ctx.countTypesWith modifier ts) := by
  induction ts with
  | nil => exact keeps_pure 0
  | cons t ts ih =>
    unfold Context.countTypesWith
    apply (h.ask _).orUnresolved.bind
    intro answer
    cases answer with
    | ok ms => exact ih.bind fun _ => keeps_pure _
    | error _ => exact ih.bind fun _ => keeps_pure _

theorem metrics (h : ctx.InvariantOn Asked P) {t : TypeName} (ht : Asked t) (depth : Option Int) :
    Keeps P (ctx.metrics t depth) := by
  unfold Context.metrics
  refine (h.ask _).bind fun methods => ?_
  refine (h.ask _).bind fun fields => ?_
  refine (h.direct t ht).bind fun references => ?_
  refine (h.closure ht depth).bind fun associated => ?_
  refine (h.ask _).bind fun constructors => ?_
  refine (h.countTypesWith _ _).bind fun interfaceTypes => ?_
  exact (h.countTypesWith _ _).bind fun abstractTypes => keeps_pure _

theorem methodArgCount (h : ctx.InvariantOn Asked P) (t : TypeName) (name : String) :
    Keeps P (ctx.methodArgCount t name) := by
  unfold Context.methodArgCount
  apply (h.ask _).orUnresolved.bind
  intro answer
  cases answer with
  | ok ms => exact keeps_pure _
  | error _ => exact keeps_pure _

theorem neighbourhood (h : ctx.InvariantOn Asked P) {t : TypeName} (ht : Asked t) :
    Keeps P (ctx.neighbourhood t) := by
  unfold Context.neighbourhood
  exact (h.direct t ht).bind fun _ => reading _

theorem registerRoots (h : ctx.InvariantOn Asked P) (names : List String) :
    Keeps P (ctx.registerRoots names) := by
  unfold Context.registerRoots
  apply keeps_foldlM
  intro acc n _
  apply (h.ask _).orUnresolved.bind
  intro answer
  cases answer with
  | ok t =>
    by_cases ht : t ∈ acc.kept
    · simp only [if_pos ht]
      exact keeps_pure acc
    · simp only [if_neg ht]
      exact (h.root t).bind fun _ => keeps_pure _
  | error _ => exact (h.note _).bind fun _ => keeps_pure _

theorem measureRoots (h : ctx.InvariantOn Asked P) (depth : Int) {roots : List TypeName}
    (hroots : ∀ t ∈ roots, Asked t) : Keeps P (ctx.measureRoots depth roots) := by
  unfold Context.measureRoots
  apply keeps_foldlM
  intro acc t ht
  apply (h.metrics (hroots t ht) _).orUnresolved.bind
  intro answer
  cases answer with
  | ok m => exact keeps_pure _
  | error _ => exact (h.note _).bind fun _ => keeps_pure _

theorem analysis (h : ctx.InvariantOn Asked P) {names : List String}
    (hnames : ∀ n ∈ names, Asked (Text.strip n)) (depth : Option Int) :
    Keeps P (ctx.analysis names depth) := by
  unfold Context.analysis
  refine (h.registerRoots _).bind_of_returns (returns_registerRoots _) fun roots hroots => ?_
  refine (h.measureRoots _ ?_).bind fun rows => reading _
  -- the metrics are those of types that the names stand for
  intro t ht
  obtain ⟨n, hn, hresolve⟩ := hroots t ht
  obtain ⟨-, m, hm, rfl⟩ := mem_cleanNames_iff.1 hn
  exact h.resolve _ t (hnames m hm) hresolve

/-- A step on the graph that records no edge registers a root, or changes nothing. -/
theorem graphStep (h : ctx.InvariantOn Asked P) {step : GraphStep}
    (hstep : (Step.graph step).recordsEdges = false) : Keeps P (ctx.answer (.graph step)) := by
  have hafter : Keeps P (Run.updateGraph fun g => g.after step) := by
    cases step with
    | addEdge a b => cases hstep
    | addAll ts b => cases hstep
    | addRoot t => exact h.root t
    | _ => exact fun s hs => h.aside s _ rfl rfl hs
  exact Keeps.bind (fun _ hs => hs) fun _ => hafter.bind fun _ => keeps_pure _

/-- A step that records no edges by itself, and asks about no other types, keeps the property. -/
theorem answer (h : ctx.InvariantOn Asked P) {step : Step} (hstep : step.recordsEdges = false)
    (hasks : ∀ u, step.Asks u → Asked u) : Keeps P (ctx.answer step) := by
  cases step with
  | isPrimitive t => exact keeps_pure _
  | isHierarchyRoot n => exact keeps_pure _
  | direct t => exact (h.direct t (hasks t rfl)).bind fun _ => keeps_pure _
  | isCached t => exact fun s hs => h.aside s _ rfl rfl hs
  | closure t depth => exact (h.closure (hasks t rfl) depth).bind fun _ => keeps_pure _
  | explore t depth => exact (h.explore t _ (hasks t rfl)).bind fun _ => keeps_pure _
  | resolution name => exact ((h.ask _).bind fun _ => keeps_pure _).bind fun _ => keeps_pure _
  | neighbourhood t => exact (h.neighbourhood (hasks t rfl)).bind fun _ => keeps_pure _
  | tree t depth =>
    exact ((h.explore t _ (hasks t rfl)).bind fun _ => keeps_pure _).bind fun _ => keeps_pure _
  | metrics t depth => exact (h.metrics (hasks t rfl) depth).bind fun _ => keeps_pure _
  | methodArgCount t name => exact (h.methodArgCount t name).bind fun _ => keeps_pure _
  | analyze names depth =>
    have hnames : ∀ n ∈ names, Asked (Text.strip n) := fun n hn => hasks _ ⟨n, hn, rfl⟩
    exact (h.analysis hnames depth).bind fun _ => keeps_pure _
  | graph step => exact h.graphStep hstep
  -- every other step asks the provider alone
  | _ => exact (h.ask _).bind fun _ => keeps_pure _

/-- A sequence of steps that record no edges by themselves, and ask about no other types, keeps the
    property. -/
theorem after (h : ctx.InvariantOn Asked P) {steps : List Step}
    (hsteps : ∀ step ∈ steps, step.recordsEdges = false)
    (hasks : ∀ step ∈ steps, ∀ u, step.Asks u → Asked u) {s : Session Unit} (hs : P s) :
    P (ctx.after s steps) := by
  induction steps generalizing s with
  | nil => exact hs
  | cons step steps ih =>
    obtain ⟨hstep, hrest⟩ := List.forall_mem_cons.1 hsteps
    obtain ⟨hask, hasksRest⟩ := List.forall_mem_cons.1 hasks
    exact ih hrest hasksRest (h.answer hstep hask s hs)

end InvariantOn

/-- An invariant is one on whatever types. -/
theorem invariant_iff {ctx : Context Unit} {P : Session Unit → Prop} :
    ctx.Invariant P ↔ ctx.InvariantOn (fun _ => True) P := by
  apply Iff.intro
  · intro h
    exact ⟨h.aside, fun t _ => h.direct t, fun root depth _ => h.explore root depth, h.root,
      fun _ _ _ _ => trivial⟩
  · intro h
    exact ⟨h.aside, fun t => h.direct t trivial, fun root depth => h.explore root depth trivial,
      h.root⟩

/-- A sequence of steps that record no edges by themselves keeps the property. -/
theorem Invariant.after {ctx : Context Unit} {P : Session Unit → Prop} (h : ctx.Invariant P)
    {steps : List Step} (hsteps : ∀ step ∈ steps, step.recordsEdges = false) {s : Session Unit}
    (hs : P s) : P (ctx.after s steps) :=
  (invariant_iff.1 h).after hsteps (fun _ _ _ _ => trivial) hs

/-! ## §4 Properties that gains keep -/

/-- What a question may add that is about an asked type, or registers a root. -/
inductive Offers (ctx : Context Unit) (Asked : TypeName → Prop) : Gain → Prop where
  | nothing : Offers ctx Asked ∅
  | learning {t : TypeName} : Asked t → Offers ctx Asked (.learning {t})
  | exploring {root : TypeName} (bound : Bound) :
      Asked root → Offers ctx Asked (ctx.exploring bound root)
  | rooting (t : TypeName) : Offers ctx Asked (.rooting t)

/-- A property of coherent sessions is kept if every such gain keeps it. -/
theorem invariantOn_of_gains {ctx : Context Unit} (hctx : ctx.Lawful) {Asked : TypeName → Prop}
    {P : Session Unit → Prop} (hcoherent : ∀ s, P s → ctx.Coherent s)
    (hgain : ∀ g s s', ctx.Offers Asked g → ctx.Gained g s s' → P s → P s')
    (hresolve : ∀ n t, Asked n → ((ctx.provider.resolve n).run ()).1 = .ok t → Asked t) :
    ctx.InvariantOn Asked P where
  aside s s' hdescriptors hgraph := hgain ∅ s s' .nothing (.of_eq hdescriptors hgraph)
  direct t ht s hs := by
    cases href : ctx.refs t with
    | some rs =>
      have hadds := (yields_directReferences href).adds
      exact hgain _ _ _ (.learning ht) (hadds s (hcoherent s hs)) hs
    | none =>
      have hadds := (yields_directReferences_unresolved hctx href).adds
      exact hgain _ _ _ .nothing (hadds s (hcoherent s hs)) hs
  explore root depth hroot s hs := by
    -- an exploration gains nothing at a depth that is no bound, or from a type without references
    cases hb : Bound.ofInt? depth with
    | none =>
      have hadds : ctx.Adds (ctx.explore root depth) ∅ := (yields_explore_depthBelow hb).adds
      exact hgain _ _ _ .nothing (hadds s (hcoherent s hs)) hs
    | some bound =>
      cases href : ctx.refs root with
      | some rs =>
        have hadds := (yields_explore hctx ⟨rs, href⟩ hb).adds
        exact hgain _ _ _ (.exploring bound hroot) (hadds s (hcoherent s hs)) hs
      | none =>
        have hadds := (yields_explore_unresolved hctx href hb).adds
        exact hgain _ _ _ .nothing (hadds s (hcoherent s hs)) hs
  root t s hs := hgain _ _ _ (.rooting t) (yields_addRoot t s (hcoherent s hs)).2 hs
  resolve := hresolve

end Context

end TypeAtlas
