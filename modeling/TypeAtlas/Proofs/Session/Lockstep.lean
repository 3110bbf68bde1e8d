import Mathlib.Data.List.Perm.Basic
import TypeAtlas.Proofs.Session.Gain

/-!
# Questions in lockstep

The same questions asked in two contexts, one after the other, each context with a session of its
own. `Run.InStep` says that two questions asked in related sessions have outcomes that agree and
leave related sessions, and composes along the questions. `Context.Lockstep` collects what a
relation has to bear: notes, what a provider remembers, direct references, and the writers of the
graph. Every step then has outcomes that agree, and sessions stay related along all sequences of
steps.

Main statements: `Context.Lockstep.step` and `Context.Lockstep.after`.
-/

namespace TypeAtlas

/-! ## §1 Outcomes that agree -/

/-- Two outcomes agree if they are answers that `Q` relates, or the same failure. -/
inductive Agree {ε α β : Type} (Q : α → β → Prop) : Except ε α → Except ε β → Prop where
  | answered {a : α} {b : β} : Q a b → Agree Q (.ok a) (.ok b)
  | failed (f : ε) : Agree Q (.error f) (.error f)

section Agree

variable {ε α β : Type} {P Q : α → β → Prop} {r : Except ε α} {r' : Except ε β}

theorem Agree.mono (h : Agree P r r') (hPQ : ∀ a b, P a b → Q a b) : Agree Q r r' := by
  cases h with
  | answered hab => exact .answered (hPQ _ _ hab)
  | failed f => exact .failed f

theorem agree_eq_iff {r r' : Except ε α} : Agree Eq r r' ↔ r = r' := by
  apply Iff.intro
  · intro h
    cases h with
    | answered hab => rw [hab]
    | failed f => rfl
  · intro h
    subst h
    cases r with
    | ok a => exact .answered rfl
    | error f => exact .failed f

/-- Outcomes that agree fail alike. -/
theorem Agree.error_iff (h : Agree Q r r') (f : ε) : r = .error f ↔ r' = .error f := by
  cases h with
  | answered _ => exact ⟨nofun, nofun⟩
  | failed g => exact ⟨fun heq => by cases heq; rfl, fun heq => by cases heq; rfl⟩

end Agree

/-! ## §2 Questions side by side -/

namespace Run

variable {σ α β γ δ ι : Type} {R : Session σ → Session σ → Prop}

/-- Asked in related sessions the two questions have outcomes that agree on answers that `Q`
    relates, and leave related sessions. -/
def InStep (R : Session σ → Session σ → Prop) (Q : α → β → Prop) (m : Run σ α) (m' : Run σ β) :
    Prop :=
  ∀ s s', R s s' → Agree Q (m.run s).1 (m'.run s').1 ∧ R (m.run s).2 (m'.run s').2

section Rules

variable {P : α → β → Prop} {Q : γ → δ → Prop} {m : Run σ α} {m' : Run σ β} {k : α → Run σ γ}
  {k' : β → Run σ δ}

theorem inStep_pure {a : α} {b : β} (h : P a b) : InStep R P (pure a) (pure b) :=
  fun _ _ hs => ⟨.answered h, hs⟩

theorem inStep_throw (f : Failure) : InStep R P (throw f : Run σ α) (throw f : Run σ β) :=
  fun _ _ hs => ⟨.failed f, hs⟩

theorem InStep.bind (hm : InStep R P m m') (hk : ∀ a b, P a b → InStep R Q (k a) (k' b)) :
    InStep R Q (m >>= k) (m' >>= k') := by
  intro s s' hs
  obtain ⟨hval, hnext⟩ := hm s s' hs
  rcases hrun : m.run s with ⟨f | a, t⟩ <;> rcases hrun' : m'.run s' with ⟨f' | b, t'⟩ <;>
    rw [hrun, hrun'] at hval hnext <;> cases hval
  · -- both fail, and no second question is asked
    rw [Asking.run_bind_of_error hrun, Asking.run_bind_of_error hrun']
    exact ⟨.failed f, hnext⟩
  · rename_i hab
    rw [Asking.run_bind_of_ok hrun, Asking.run_bind_of_ok hrun']
    exact hk a b hab t t' hnext

/-- First questions with the same answer are followed by the same second one on both sides. -/
theorem InStep.bind_eq {m m' : Run σ α} {k' : α → Run σ δ} (hm : InStep R Eq m m')
    (hk : ∀ a, InStep R Q (k a) (k' a)) : InStep R Q (m >>= k) (m' >>= k') := by
  apply hm.bind
  intro a b hab
  subst hab
  exact hk a

/-- A question that goes on with the session may use what related sessions have in common. -/
theorem inStep_get_bind {k : Session σ → Run σ γ} {k' : Session σ → Run σ δ}
    (hk : ∀ s s', R s s' → InStep R Q (k s) (k' s')) :
    InStep R Q (get >>= k) (get >>= k') := by
  intro s s' hs
  rw [Asking.run_bind_of_ok (run_get s), Asking.run_bind_of_ok (run_get s')]
  exact hk s s' hs s s' hs

theorem inStep_graph_bind {k : Graph → Run σ γ} {k' : Graph → Run σ δ}
    (hk : ∀ s s', R s s' → InStep R Q (k s.graph) (k' s'.graph)) :
    InStep R Q (graph >>= k) (graph >>= k') := by
  intro s s' hs
  rw [Asking.run_bind_of_ok (run_graph s), Asking.run_bind_of_ok (run_graph s')]
  exact hk s s' hs s s' hs

theorem InStep.orUnresolved {m m' : Run σ α} (hm : InStep R Eq m m') :
    InStep R Eq (orUnresolved m) (orUnresolved m') := by
  intro s s' hs
  obtain ⟨hval, hnext⟩ := hm s s' hs
  rw [run_orUnresolved, run_orUnresolved, agree_eq_iff.1 hval]
  exact ⟨agree_eq_iff.2 rfl, hnext⟩

end Rules

theorem inStep_foldlM {f f' : α → ι → Run σ α} (hf : ∀ a i, InStep R Eq (f a i) (f' a i))
    (is : List ι) (a : α) : InStep R Eq (is.foldlM f a) (is.foldlM f' a) := by
  induction is generalizing a with
  | nil => exact inStep_pure rfl
  | cons i is ih =>
    rw [List.foldlM_cons, List.foldlM_cons]
    exact (hf a i).bind_eq fun a' => ih a'

end Run

/-! ## §3 Contexts in lockstep -/

/-- Two questions to providers have outcomes that agree on answers that `Q` relates, and leave the
    same memory. -/
def Asking.Matches {σ α β : Type} (Q : α → β → Prop) (m : Asking σ α) (m' : Asking σ β) : Prop :=
  ∀ x, Agree Q (m.run x).1 (m'.run x).1 ∧ (m'.run x).2 = (m.run x).2

theorem Asking.matches_refl {σ α : Type} {Q : α → α → Prop} (hQ : ∀ a, Q a a) (m : Asking σ α) :
    m.Matches Q m := by
  intro x
  refine ⟨?_, rfl⟩
  cases (m.run x).1 with
  | ok a => exact .answered (hQ a)
  | error f => exact .failed f

/-- Two providers give the same answers, but for the order in which they list the types that a name
    may stand for, and the interfaces, the nested types and the fields of a type. -/
structure Provider.Matches {σ : Type} (p p' : Provider σ) : Prop where
  resolve : ∀ n, (p.resolve n).Matches Eq (p'.resolve n)
  search : ∀ n, (p.search n).Matches List.Perm (p'.search n)
  fields : ∀ t, (p.fields t).Matches List.Perm (p'.fields t)
  methods : ∀ t, (p.methods t).Matches Eq (p'.methods t)
  constructors : ∀ t, (p.constructors t).Matches Eq (p'.constructors t)
  interfaces : ∀ t, (p.interfaces t).Matches List.Perm (p'.interfaces t)
  superType : ∀ t, (p.superType t).Matches Eq (p'.superType t)
  declaringType : ∀ t, (p.declaringType t).Matches Eq (p'.declaringType t)
  enclosingType : ∀ t, (p.enclosingType t).Matches Eq (p'.enclosingType t)
  nestedTypes : ∀ t, (p.nestedTypes t).Matches List.Perm (p'.nestedTypes t)
  modifiers : ∀ t, (p.modifiers t).Matches Eq (p'.modifiers t)
  isPrimitive : p'.isPrimitive = p.isPrimitive
  capacity : p'.capacity = p.capacity

theorem Provider.matches_refl {σ : Type} (p : Provider σ) : p.Matches p where
  resolve _ := Asking.matches_refl (fun _ => rfl) _
  search _ := Asking.matches_refl List.Perm.refl _
  fields _ := Asking.matches_refl List.Perm.refl _
  methods _ := Asking.matches_refl (fun _ => rfl) _
  constructors _ := Asking.matches_refl (fun _ => rfl) _
  interfaces _ := Asking.matches_refl List.Perm.refl _
  superType _ := Asking.matches_refl (fun _ => rfl) _
  declaringType _ := Asking.matches_refl (fun _ => rfl) _
  enclosingType _ := Asking.matches_refl (fun _ => rfl) _
  nestedTypes _ := Asking.matches_refl List.Perm.refl _
  modifiers _ := Asking.matches_refl (fun _ => rfl) _
  isPrimitive := rfl
  capacity := rfl

/-- Whether a step asks the provider for a listing. -/
def Step.lists : Step → Bool
  | .search _ => true
  | .fields _ => true
  | .interfaces _ => true
  | .nestedTypes _ => true
  | .resolution _ => true
  | _ => false

/-- Two answers list the same types or fields, each in an order of its own. -/
inductive Answer.ListsAlike : Answer → Answer → Prop where
  | types {ts ts' : List TypeName} : ts.Perm ts' → ListsAlike (.types ts) (.types ts')
  | fields {fs fs' : List Field} : fs.Perm fs' → ListsAlike (.fields fs) (.fields fs')
  | resolution (name : String) {ts ts' : List TypeName} :
      ts.Perm ts' → ListsAlike (.resolution ⟨name, ts⟩) (.resolution ⟨name, ts'⟩)

/-- How two answers to a step agree: they are the same, or they are so up to the order of a listing,
    or up to what is read out of the graphs of related sessions. -/
inductive Step.Agrees {σ : Type} (R : Session σ → Session σ → Prop) :
    Step → Answer → Answer → Prop where
  | same {step : Step} (a : Answer) : Agrees R step a a
  | listing {step : Step} {a a' : Answer} :
      step.lists = true → a.ListsAlike a' → Agrees R step a a'
  | neighbourhood (t : TypeName) (references : NameSet) {s s' : Session σ} :
      R s s' → Agrees R (.neighbourhood t)
        (.neighbourhood ⟨t, references, s.graph.referrers t⟩)
        (.neighbourhood ⟨t, references, s'.graph.referrers t⟩)
  | analysis {names : List String} {asked : Option Int} (depth : Int) (metrics : List Metrics)
      (unresolved : List String) {s s' : Session σ} :
      R s s' → Agrees R (.analyze names asked)
        (.analysis ⟨depth, metrics, unresolved, s.graph.nodeRows, s.graph.edgeRows⟩)
        (.analysis ⟨depth, metrics, unresolved, s'.graph.nodeRows, s'.graph.edgeRows⟩)
  | graph (step : GraphStep) {s s' : Session σ} :
      R s s' →
        Agrees R (.graph step) (.graph (s.graph.answer step)) (.graph (s'.graph.answer step))

namespace Context

open Run (InStep inStep_pure inStep_throw inStep_get_bind inStep_graph_bind inStep_foldlM)

/-- The graph after an exploration whose expanded types reach one another as the edges say. -/
def drawn {σ : Type} (ctx : Context σ) (g : Graph) (reached : List Edge) : Graph :=
  if ctx.config.transitiveEdges then g.addEdges reached else g

/-- A relation between sessions that the questions of two contexts bear. The contexts have matching
    providers and differ in no setting but in whether transitive edges are recorded. -/
structure Lockstep {σ : Type} (ctx ctx' : Context σ) (R : Session σ → Session σ → Prop) :
    Prop where
  provider : ctx.provider.Matches ctx'.provider
  config : ctx'.config = { ctx.config with transitiveEdges := ctx'.config.transitiveEdges }
  memory : ∀ s s', R s s' → s'.memory = s.memory
  descriptors : ∀ s s', R s s' → s'.descriptors = s.descriptors
  /-- The provider may remember the same on both sides. -/
  remember : ∀ s s', R s s' → ∀ x, R { s with memory := x } { s' with memory := x }
  /-- The same may be noted on both sides, apart from the computation of direct references. -/
  note : ∀ s s', R s s' → ∀ n, (∀ t, n ≠ .computing t) →
    R { s with log := s.log ++ [n] } { s' with log := s'.log ++ [n] }
  direct : ∀ t, InStep R Eq (ctx.directReferences t) (ctx'.directReferences t)
  /-- What the types on record reach may be drawn on both sides, as the settings say. -/
  draw : ∀ s s', R s s' → ∀ reached, R { s with graph := ctx.drawn s.graph reached }
    { s' with graph := ctx'.drawn s'.graph reached }
  /-- The same step on the graph may be taken on both sides. -/
  write : ∀ s s', R s s' → ∀ step, R { s with graph := s.graph.after step }
    { s' with graph := s'.graph.after step }

namespace Lockstep

variable {σ α β : Type} {ctx ctx' : Context σ} {R : Session σ → Session σ → Prop}

/-! ## §4 The questions of the library -/

theorem ask (h : ctx.Lockstep ctx' R) {Q : α → β → Prop} {m : Asking σ α} {m' : Asking σ β}
    (hm : m.Matches Q m') : InStep R Q (Run.ask m) (Run.ask m') := by
  intro s s' hs
  rw [Run.run_ask, Run.run_ask, h.memory s s' hs]
  obtain ⟨hval, hmemory⟩ := hm s.memory
  rw [hmemory]
  exact ⟨hval, h.remember s s' hs _⟩

theorem inStep_note (h : ctx.Lockstep ctx' R) {n : Notice} (hn : ∀ t, n ≠ .computing t) :
    InStep R Eq (Run.note n) (Run.note n) :=
  fun s s' hs => ⟨.answered rfl, h.note s s' hs n hn⟩

theorem updateGraph_after (h : ctx.Lockstep ctx' R) (step : GraphStep) :
    InStep R Eq (Run.updateGraph fun g => g.after step) (Run.updateGraph fun g => g.after step) :=
  fun s s' hs => ⟨.answered rfl, h.write s s' hs step⟩

theorem walkStep (h : ctx.Lockstep ctx' R) (root : TypeName) (bound : Bound) (w : Walk)
    (t : TypeName) (k : Nat) :
    InStep R Eq (ctx.walkStep root bound w t k) (ctx'.walkStep root bound w t k) := by
  unfold Context.walkStep
  by_cases hk : bound.admits k = true
  · rw [if_pos hk, if_pos hk]
    apply (h.direct t).orUnresolved.bind_eq
    intro answer
    cases answer with
    | ok rs => exact inStep_pure rfl
    | error n =>
      by_cases hroot : t = root
      · simp only [if_pos hroot]
        exact inStep_throw _
      · simp only [if_neg hroot]
        exact (h.inStep_note (by nofun)).bind_eq fun _ => inStep_pure rfl
  · rw [if_neg hk, if_neg hk]
    exact inStep_pure rfl

theorem walk (h : ctx.Lockstep ctx' R) (root : TypeName) (bound : Bound) (fuel : Nat) (w : Walk) :
    InStep R Eq (ctx.walk root bound fuel w) (ctx'.walk root bound fuel w) := by
  induction fuel generalizing w with
  | zero => exact inStep_pure rfl
  | succ fuel ih =>
    unfold Context.walk
    cases w.queue with
    | nil => exact inStep_pure rfl
    | cons e rest => exact (h.walkStep root bound w e.1 e.2).bind_eq ih

/-- What an exploration does after its walk. -/
theorem drawReached (h : ctx.Lockstep ctx' R) (reached : List Edge) (x : Exploration) :
    InStep R Eq
      (if ctx.config.transitiveEdges = true then
        Run.updateGraph (fun g => g.addEdges reached) >>= fun _ => pure x
      else pure x : Run σ Exploration)
      (if ctx'.config.transitiveEdges = true then
        Run.updateGraph (fun g => g.addEdges reached) >>= fun _ => pure x
      else pure x : Run σ Exploration) := by
  have hrun : ∀ (c : Context σ) (s : Session σ),
      (if c.config.transitiveEdges = true then
          Run.updateGraph (fun g => g.addEdges reached) >>= fun _ => pure x
        else pure x : Run σ Exploration).run s =
        (.ok x, { s with graph := c.drawn s.graph reached }) := by
    intro c s
    unfold drawn
    cases c.config.transitiveEdges <;> rfl
  intro s s' hs
  rw [hrun, hrun]
  exact ⟨.answered rfl, h.draw s s' hs reached⟩

theorem exploreWithin (h : ctx.Lockstep ctx' R) (root : TypeName) (bound : Bound) :
    InStep R Eq (ctx.exploreWithin root bound) (ctx'.exploreWithin root bound) := by
  unfold Context.exploreWithin
  apply inStep_get_bind
  intro s s' hs
  rw [h.memory s s' hs, h.provider.capacity]
  exact (h.walk root bound _ _).bind_eq fun w => h.drawReached _ _

theorem explore (h : ctx.Lockstep ctx' R) (root : TypeName) (depth : Int) :
    InStep R Eq (ctx.explore root depth) (ctx'.explore root depth) := by
  unfold Context.explore
  cases Bound.ofInt? depth with
  | some bound => exact h.exploreWithin root bound
  | none => exact inStep_throw _

theorem depthOr (h : ctx.Lockstep ctx' R) (depth : Option Int) :
    ctx'.depthOr depth = ctx.depthOr depth := by
  unfold Context.depthOr
  rw [h.config]

theorem closure (h : ctx.Lockstep ctx' R) (root : TypeName) (depth : Option Int) :
    InStep R Eq (ctx.closure root depth) (ctx'.closure root depth) := by
  unfold Context.closure
  rw [h.depthOr]
  exact (h.explore root _).bind_eq fun x => inStep_pure rfl

theorem closureTree (h : ctx.Lockstep ctx' R) (root : TypeName) (depth : Option Int) :
    InStep R Eq (ctx.closureTree root depth) (ctx'.closureTree root depth) := by
  unfold Context.closureTree
  rw [h.depthOr]
  exact (h.explore root _).bind_eq fun x => inStep_pure rfl

theorem countTypesWith (h : ctx.Lockstep ctx' R) (modifier : String) (ts : List TypeName) :
    InStep R Eq (ctx.countTypesWith modifier ts) (ctx'.countTypesWith modifier ts) := by
  induction ts with
  | nil => exact inStep_pure rfl
  | cons t ts ih =>
    unfold Context.countTypesWith
    apply (h.ask (h.provider.modifiers t)).orUnresolved.bind_eq
    intro answer
    cases answer with
    | ok ms => exact ih.bind_eq fun n => inStep_pure rfl
    | error _ => exact ih.bind_eq fun n => inStep_pure rfl

/-- The metrics of a type count its fields, in whatever order these are listed. -/
theorem metrics (h : ctx.Lockstep ctx' R) (t : TypeName) (depth : Option Int) :
    InStep R Eq (ctx.metrics t depth) (ctx'.metrics t depth) := by
  unfold Context.metrics
  refine (h.ask (h.provider.methods t)).bind_eq fun methods => ?_
  refine (h.ask (h.provider.fields t)).bind fun fields fields' hfields => ?_
  refine (h.direct t).bind_eq fun references => ?_
  refine (h.closure t depth).bind_eq fun associated => ?_
  refine (h.ask (h.provider.constructors t)).bind_eq fun constructors => ?_
  refine (h.countTypesWith _ _).bind_eq fun interfaceTypes => ?_
  refine (h.countTypesWith _ _).bind_eq fun abstractTypes => ?_
  have hcount : ∀ modifier, countWith modifier (fields'.map Field.modifiers) =
      countWith modifier (fields.map Field.modifiers) := fun modifier =>
    ((hfields.map Field.modifiers).countP_eq _).symm
  simp only [hcount, hfields.length_eq]
  exact inStep_pure rfl

theorem methodArgCount (h : ctx.Lockstep ctx' R) (t : TypeName) (name : String) :
    InStep R Eq (ctx.methodArgCount t name) (ctx'.methodArgCount t name) := by
  unfold Context.methodArgCount
  apply (h.ask (h.provider.methods t)).orUnresolved.bind_eq
  intro answer
  cases answer with
  | ok ms => exact inStep_pure rfl
  | error _ => exact inStep_pure rfl

theorem registerRoots (h : ctx.Lockstep ctx' R) (names : List String) :
    InStep R Eq (ctx.registerRoots names) (ctx'.registerRoots names) := by
  unfold Context.registerRoots
  apply inStep_foldlM
  intro acc n
  apply (h.ask (h.provider.resolve n)).orUnresolved.bind_eq
  intro answer
  cases answer with
  | ok t =>
    by_cases ht : t ∈ acc.kept
    · simp only [if_pos ht]
      exact inStep_pure rfl
    · simp only [if_neg ht]
      exact (h.updateGraph_after (.addRoot t)).bind_eq fun _ => inStep_pure rfl
  | error _ => exact (h.inStep_note (by nofun)).bind_eq fun _ => inStep_pure rfl

theorem measureRoots (h : ctx.Lockstep ctx' R) (depth : Int) (roots : List TypeName) :
    InStep R Eq (ctx.measureRoots depth roots) (ctx'.measureRoots depth roots) := by
  unfold Context.measureRoots
  apply inStep_foldlM
  intro acc t
  apply (h.metrics t _).orUnresolved.bind_eq
  intro answer
  cases answer with
  | ok m => exact inStep_pure rfl
  | error _ => exact (h.inStep_note (by nofun)).bind_eq fun _ => inStep_pure rfl

theorem analysis (h : ctx.Lockstep ctx' R) (names : List String) (depth : Option Int) :
    InStep R (fun a a' => Step.Agrees R (.analyze names depth) (.analysis a) (.analysis a'))
      (ctx.analysis names depth) (ctx'.analysis names depth) := by
  unfold Context.analysis
  rw [h.depthOr]
  refine (h.registerRoots _).bind_eq fun roots => ?_
  refine (h.measureRoots _ _).bind_eq fun rows => ?_
  exact inStep_graph_bind fun s s' hs => inStep_pure (.analysis _ _ _ hs)

theorem neighbourhood (h : ctx.Lockstep ctx' R) (t : TypeName) :
    InStep R (fun n n' => Step.Agrees R (.neighbourhood t) (.neighbourhood n) (.neighbourhood n'))
      (ctx.neighbourhood t) (ctx'.neighbourhood t) := by
  unfold Context.neighbourhood
  refine (h.direct t).bind_eq fun references => ?_
  exact inStep_graph_bind fun s s' hs => inStep_pure (.neighbourhood _ _ hs)

theorem resolution (h : ctx.Lockstep ctx' R) (name : String) :
    InStep R (fun r r' => Step.Agrees R (.resolution name) (.resolution r) (.resolution r'))
      (ctx.resolution name) (ctx'.resolution name) := by
  unfold Context.resolution
  exact (h.ask (h.provider.search name)).bind fun _ _ hts =>
    inStep_pure (.listing rfl (.resolution name hts))

/-! ## §5 Steps -/

theorem isCached (h : ctx.Lockstep ctx' R) (t : TypeName) :
    InStep R Eq (Context.isCached t) (Context.isCached t) := by
  unfold Context.isCached
  apply inStep_get_bind
  intro s s' hs
  rw [h.descriptors s s' hs]
  exact inStep_pure rfl

theorem isHierarchyRoot (h : ctx.Lockstep ctx' R) (n : TypeName) :
    ctx'.config.isHierarchyRoot n = ctx.config.isHierarchyRoot n := by
  unfold Config.isHierarchyRoot
  rw [h.config]

theorem graphStep (h : ctx.Lockstep ctx' R) (step : GraphStep) :
    InStep R (Step.Agrees R (.graph step)) (ctx.answer (.graph step)) (ctx'.answer (.graph step)) :=
  inStep_graph_bind fun _ _ hs =>
    (h.updateGraph_after step).bind_eq fun _ => inStep_pure (.graph step hs)

/-- Every step has outcomes that agree, and leaves related sessions. -/
theorem answer (h : ctx.Lockstep ctx' R) (step : Step) :
    InStep R (step.Agrees R) (ctx.answer step) (ctx'.answer step) := by
  -- most answers are the same on both sides, and stay so in the form of an answer
  have same : ∀ {α : Type} {m m' : Run σ α} (form : α → Answer), InStep R Eq m m' →
      InStep R (step.Agrees R) (m >>= fun a => pure (form a)) (m' >>= fun a => pure (form a)) :=
    fun form hm => hm.bind_eq fun a => inStep_pure (.same (form a))
  cases step with
  | resolve n => exact same _ (h.ask (h.provider.resolve n))
  | search n =>
    exact (h.ask (h.provider.search n)).bind fun _ _ hts => inStep_pure (.listing rfl (.types hts))
  | fields t =>
    exact (h.ask (h.provider.fields t)).bind fun _ _ hfs => inStep_pure (.listing rfl (.fields hfs))
  | methods t => exact same _ (h.ask (h.provider.methods t))
  | constructors t => exact same _ (h.ask (h.provider.constructors t))
  | interfaces t =>
    exact (h.ask (h.provider.interfaces t)).bind fun _ _ hts =>
      inStep_pure (.listing rfl (.types hts))
  | nestedTypes t =>
    exact (h.ask (h.provider.nestedTypes t)).bind fun _ _ hts =>
      inStep_pure (.listing rfl (.types hts))
  | superType t => exact same _ (h.ask (h.provider.superType t))
  | declaringType t => exact same _ (h.ask (h.provider.declaringType t))
  | enclosingType t => exact same _ (h.ask (h.provider.enclosingType t))
  | modifiers t => exact same _ (h.ask (h.provider.modifiers t))
  | isPrimitive t =>
    show InStep R _ (pure (Answer.truth (ctx.provider.isPrimitive t)))
      (pure (Answer.truth (ctx'.provider.isPrimitive t)))
    rw [h.provider.isPrimitive]
    exact inStep_pure (.same _)
  | isHierarchyRoot n =>
    show InStep R _ (pure (Answer.truth (ctx.config.isHierarchyRoot n)))
      (pure (Answer.truth (ctx'.config.isHierarchyRoot n)))
    rw [h.isHierarchyRoot]
    exact inStep_pure (.same _)
  | direct t => exact same _ (h.direct t)
  | isCached t => exact same _ (h.isCached t)
  | closure t depth => exact same _ (h.closure t depth)
  | explore t depth => exact same _ (h.explore t _)
  | resolution n => exact (h.resolution n).bind fun _ _ hr => inStep_pure hr
  | neighbourhood t => exact (h.neighbourhood t).bind fun _ _ hn => inStep_pure hn
  | tree t depth => exact same _ (h.closureTree t depth)
  | metrics t depth => exact same _ (h.metrics t depth)
  | methodArgCount t name => exact same _ (h.methodArgCount t name)
  | analyze names depth => exact (h.analysis names depth).bind fun _ _ ha => inStep_pure ha
  | graph step => exact h.graphStep step

theorem step (h : ctx.Lockstep ctx' R) {s s' : Session σ} (hs : R s s') (step : Step) :
    Agree (step.Agrees R) (ctx.step s step).1 (ctx'.step s' step).1 ∧
      R (ctx.step s step).2 (ctx'.step s' step).2 :=
  h.answer step s s' hs

/-- A sequence of steps leads from related sessions to related ones. -/
theorem after (h : ctx.Lockstep ctx' R) {s s' : Session σ} (hs : R s s') (steps : List Step) :
    R (ctx.after s steps) (ctx'.after s' steps) := by
  induction steps generalizing s s' with
  | nil => exact hs
  | cons step steps ih => exact ih (h.step hs step).2

end Lockstep

end Context

/-! ## §6 Sessions that differ in their graphs -/

/-- Two sessions are the same but for their graphs, which `G` relates. -/
structure Session.SameBut {σ : Type} (G : Graph → Graph → Prop) (s s' : Session σ) : Prop where
  memory : s'.memory = s.memory
  descriptors : s'.descriptors = s.descriptors
  log : s'.log = s.log
  graph : G s.graph s'.graph

theorem Session.SameBut.eq {σ : Type} {s s' : Session σ} (h : s.SameBut Eq s') : s' = s := by
  cases s
  cases s'
  rw [Session.mk.injEq]
  exact ⟨h.memory, h.descriptors, h.graph.symm, h.log⟩

theorem Asking.Matches.bind {σ α β γ δ : Type} {P : α → β → Prop} {Q : γ → δ → Prop}
    {m : Asking σ α} {m' : Asking σ β} {k : α → Asking σ γ} {k' : β → Asking σ δ}
    (hm : m.Matches P m') (hk : ∀ a b, P a b → (k a).Matches Q (k' b)) :
    (m >>= k).Matches Q (m' >>= k') := by
  intro x
  obtain ⟨hval, hmemory⟩ := hm x
  rcases hrun : m.run x with ⟨f | a, y⟩ <;> rcases hrun' : m'.run x with ⟨f' | b, y'⟩ <;>
    rw [hrun, hrun'] at hval hmemory <;> cases hval <;> cases hmemory
  · rw [run_bind_of_error hrun, run_bind_of_error hrun']
    exact ⟨.failed f, rfl⟩
  · rename_i hab
    rw [run_bind_of_ok hrun, run_bind_of_ok hrun']
    exact hk a b hab y

namespace Context

open Run (InStep inStep_pure inStep_get_bind)

variable {σ : Type} {ctx ctx' : Context σ} {G : Graph → Graph → Prop}

/-- What a description mentions is the same on both sides, in whatever order. -/
theorem matches_mentioned (hprovider : ctx.provider.Matches ctx'.provider)
    (hroots : ∀ n, ctx'.config.isHierarchyRoot n = ctx.config.isHierarchyRoot n) (t : TypeName) :
    (ctx.mentioned t).Matches List.Perm (ctx'.mentioned t) := by
  unfold mentioned
  refine (hprovider.declaringType t).bind fun declaring _ hdeclaring => ?_
  refine (hprovider.nestedTypes t).bind fun nested nested' hnested => ?_
  refine (hprovider.interfaces t).bind fun interfaces interfaces' hinterfaces => ?_
  refine (hprovider.superType t).bind fun above _ habove => ?_
  refine (hprovider.enclosingType t).bind fun enclosing _ henclosing => ?_
  refine (hprovider.methods t).bind fun methods _ hmethods => ?_
  refine (hprovider.fields t).bind fun fields fields' hfields => ?_
  subst hdeclaring habove henclosing hmethods
  simp only [hroots]
  intro x
  refine ⟨.answered ?_, rfl⟩
  exact (((((((List.Perm.refl _).append hnested).append hinterfaces).append_right _).append_right
    _).append_right _).append (hfields.flatMap_right _))

/-- The same types mentioned in another order leave the same references. -/
theorem keepReferences_of_perm (hprimitive : ctx'.provider.isPrimitive = ctx.provider.isPrimitive)
    (t : TypeName) {ns ns' : List TypeName} (hns : ns.Perm ns') :
    ctx'.keepReferences t ns' = ctx.keepReferences t ns := by
  unfold keepReferences
  rw [hprimitive]
  apply OrdSet.ext
  intro u
  rw [OrdSet.mem_ofList, OrdSet.mem_ofList]
  exact (hns.filter _).mem_iff.symm

/-- Direct references are answered alike in related sessions, if these share what the provider
    remembers and what is on record, and stay related when both note, remember or learn the same. -/
theorem inStep_directReferences {R : Session σ → Session σ → Prop}
    (hprovider : ctx.provider.Matches ctx'.provider)
    (hroots : ∀ n, ctx'.config.isHierarchyRoot n = ctx.config.isHierarchyRoot n)
    (hmemory : ∀ s s', R s s' → s'.memory = s.memory)
    (hdescriptors : ∀ s s', R s s' → s'.descriptors = s.descriptors)
    (hnote : ∀ n, InStep R Eq (Run.note n) (Run.note n))
    (hremember : ∀ s s', R s s' → ∀ x, R { s with memory := x } { s' with memory := x })
    (hlearn : ∀ s s', R s s' → ∀ t rs, R (Session.learn s t rs) (Session.learn s' t rs))
    (t : TypeName) : InStep R Eq (ctx.directReferences t) (ctx'.directReferences t) := by
  unfold directReferences
  apply inStep_get_bind
  intro s s' hs
  rw [hdescriptors s s' hs]
  cases s.descriptors.get? t with
  | some rs => exact inStep_pure rfl
  | none =>
    have hask : InStep R List.Perm (Run.ask (ctx.mentioned t)) (Run.ask (ctx'.mentioned t)) := by
      intro s s' hs
      rw [Run.run_ask, Run.run_ask, hmemory s s' hs]
      obtain ⟨hval, hnext⟩ := matches_mentioned hprovider hroots t s.memory
      rw [hnext]
      exact ⟨hval, hremember s s' hs _⟩
    refine (hnote _).bind_eq fun _ => ?_
    refine hask.bind fun ns ns' hns => ?_
    -- the references are kept in the cache, and their edges in the graph
    intro s s' hs
    simp only [keepReferences_of_perm hprovider.isPrimitive t hns]
    exact ⟨.answered rfl, hlearn s s' hs _ _⟩

/-- Two contexts keep their sessions the same but for the graphs, if what either writes to its graph
    keeps the graphs related. -/
theorem lockstep_sameBut (hprovider : ctx.provider.Matches ctx'.provider)
    (hconfig : ctx'.config = { ctx.config with transitiveEdges := ctx'.config.transitiveEdges })
    (hdraw : ∀ g g', G g g' → ∀ reached, G (ctx.drawn g reached) (ctx'.drawn g' reached))
    (hwrite : ∀ g g', G g g' → ∀ step, G (g.after step) (g'.after step)) :
    ctx.Lockstep ctx' (Session.SameBut G) where
  provider := hprovider
  config := hconfig
  memory _ _ hs := hs.memory
  descriptors _ _ hs := hs.descriptors
  remember _ _ hs x := ⟨rfl, hs.descriptors, hs.log, hs.graph⟩
  note _ _ hs n _ := ⟨hs.memory, hs.descriptors, congrArg (· ++ [n]) hs.log, hs.graph⟩
  direct := by
    refine inStep_directReferences hprovider ?_ (fun _ _ hs => hs.memory)
      (fun _ _ hs => hs.descriptors) ?_ (fun _ _ hs x => ⟨rfl, hs.descriptors, hs.log, hs.graph⟩) ?_
    · intro n
      unfold Config.isHierarchyRoot
      rw [hconfig]
    · exact fun n s s' hs =>
        ⟨.answered rfl, hs.memory, hs.descriptors, congrArg (· ++ [n]) hs.log, hs.graph⟩
    · exact fun s s' hs t rs => ⟨hs.memory, congrArg (OrdMap.insert t rs) hs.descriptors, hs.log,
        hwrite _ _ hs.graph (.addAll rs.toList t)⟩
  draw _ _ hs reached := ⟨hs.memory, hs.descriptors, hs.log, hdraw _ _ hs.graph reached⟩
  write _ _ hs step := ⟨hs.memory, hs.descriptors, hs.log, hwrite _ _ hs.graph step⟩

end Context

end TypeAtlas
