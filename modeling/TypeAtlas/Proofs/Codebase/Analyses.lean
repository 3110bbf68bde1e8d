import TypeAtlas.Proofs.Codebase.Lookups
import TypeAtlas.Proofs.Codebase.References
import TypeAtlas.Proofs.Codebase.Serving

/-!
# Analyses of a codebase

Over a quiet codebase an analysis fails by nothing but a name that begins with a dot: every other
name is a root with metrics, or it is reported as unresolved.

Main statement: `lookups_fail_by_dots`.
-/

namespace TypeAtlas

namespace Codebase

variable {code : Codebase} {config : Config} {K : TypeName → Prop} {t root : TypeName}
  {bound : Bound} {d : Int}

/-! ## §1 References -/

/-- No type among the names begins with a dot, but for what is no reference. -/
def Undotted (ns : List TypeName) : Prop := ∀ u ∈ ns, isPrimitive u = false → ¬DotLed u

/-- What is remembered of the codebase is calm, and no reference that is known begins with a dot. -/
structure Calm (code : Codebase) (K : TypeName → Prop) (s : Session Memory) : Prop where
  memory : s.memory.Calm code K
  references : ∀ t rs, s.descriptors.get? t = some rs → ∀ u ∈ rs, ¬DotLed u

/-- The failure is an unresolved type, and the type in question is not known. -/
def Misses (K : TypeName → Prop) (t : TypeName) (f : Failure) : Prop :=
  ¬K t ∧ ∃ u, f = .unresolved u

theorem undotted_append {ns ms : List TypeName} (hns : Undotted ns) (hms : Undotted ms) :
    Undotted (ns ++ ms) := fun u hu => (List.mem_append.1 hu).elim (hns u) (hms u)

theorem serves_part (hquiet : code.Quiet) (hnamed : code.WellNamed) (ht : ¬DotLed t) (part : Part) :
    Serves (Memory.Calm code K) Undotted (Misses K t) (part.ask (provider code) t) where
  keeps m hm := hm.after hnamed (.about part t)
  result m ns hm h u hu := notDotLed_of_answer hnamed hm (q := .about part t) h hu
  failure m f hm h := by
    obtain ⟨hK, rfl, -⟩ := failure_of_ask hquiet hnamed hm (q := .about part t) ht h
    exact ⟨hK, t, rfl⟩

theorem serves_ask {α : Type} {P : α → Prop} {E : Failure → Prop} {q : Asking Memory α}
    (hq : Serves (Memory.Calm code K) P E q) : Serves (Calm code K) P E (Run.ask q) :=
  Run.serves_ask hq (fun _ hs => hs.memory) fun _ _ hs hm => ⟨hm, hs.references⟩

theorem serves_note {E : Failure → Prop} (n : Notice) :
    Serves (Calm code K) (fun _ => True) E (Run.note n) :=
  serves_modify fun _ hs => ⟨hs.memory, hs.references⟩

theorem serves_updateGraph {E : Failure → Prop} (f : Graph → Graph) :
    Serves (Calm code K) (fun _ => True) E (Run.updateGraph f) :=
  serves_modify fun _ hs => ⟨hs.memory, hs.references⟩

theorem serves_mentioned (hquiet : code.Quiet) (hnamed : code.WellNamed) (ht : ¬DotLed t) :
    Serves (Memory.Calm code K) Undotted (Misses K t) ((context code config).mentioned t) := by
  have hpart := fun part => @serves_part code K t hquiet hnamed ht part
  unfold Context.mentioned
  refine (hpart .declaringType).of_map.bind fun declaring hdeclaring => ?_
  refine (hpart .nestedTypes).bind fun nested hnested => ?_
  refine (hpart .interfaces).bind fun interfaces hinterfaces => ?_
  refine (hpart .superType).of_map.bind fun above habove => ?_
  refine (hpart .enclosingType).of_map.bind fun enclosing henclosing => ?_
  refine (hpart .methods).of_map.bind fun methods hmethods => ?_
  refine (hpart .fields).of_map.bind fun fields hfields => serves_pure ?_
  have hkept : Undotted (above.toList.filter fun n => !config.isHierarchyRoot n) :=
    fun u hu => habove u (List.mem_filter.1 hu).1
  exact undotted_append (undotted_append (undotted_append (undotted_append (undotted_append
    (undotted_append hdeclaring hnested) hinterfaces) hkept) henclosing) hmethods) hfields

theorem serves_directReferences (hquiet : code.Quiet) (hnamed : code.WellNamed) (ht : ¬DotLed t) :
    Serves (Calm code K) (fun rs => ∀ u ∈ rs, ¬DotLed u) (Misses K t)
      ((context code config).directReferences t) := by
  unfold Context.directReferences
  refine serves_get_bind fun s hs => ?_
  cases hrs : s.descriptors.get? t with
  | some rs => exact serves_pure (hs.references t rs hrs)
  | none =>
    refine (serves_note _).bind fun _ _ => ?_
    refine (serves_ask (serves_mentioned hquiet hnamed ht)).bind fun ns hns => ?_
    have hkept : ∀ u ∈ (context code config).keepReferences t ns, ¬DotLed u := by
      intro u hu
      unfold Context.keepReferences at hu
      rw [OrdSet.mem_ofList, List.mem_filter, Bool.and_eq_true, Bool.not_eq_true'] at hu
      exact hns u hu.1 hu.2.1
    refine Serves.bind (P := fun _ => True) (serves_modify fun s hs => ?_) fun _ _ =>
      serves_pure hkept
    refine ⟨hs.memory, fun v rs hrs => ?_⟩
    unfold Context.Session.learn at hrs
    rw [OrdMap.get?_insert] at hrs
    split at hrs
    · cases hrs
      exact hkept
    · exact hs.references v rs hrs

/-! ## §2 Walks -/

/-- No type in the queue of the walk begins with a dot. -/
def Queued (w : Walk) : Prop := ∀ e ∈ w.queue, ¬DotLed e.1

theorem Queued.pass {w : Walk} (hw : Queued w) : Queued w.pass :=
  fun e he => hw e (List.mem_of_mem_tail he)

theorem Queued.expand {w : Walk} (hw : Queued w) {rs : NameSet} (hrs : ∀ u ∈ rs, ¬DotLed u)
    (current : TypeName) (depth : Nat) : Queued (w.expand current depth rs) := by
  have hdiscover : ∀ (us : List TypeName) (w : Walk), (∀ u ∈ us, ¬DotLed u) → Queued w →
      Queued (us.foldl (Walk.discover current (depth + 1)) w) := by
    intro us
    induction us with
    | nil => exact fun w _ hw => hw
    | cons u us ih =>
      intro w hus hw
      obtain ⟨hu, hrest⟩ := List.forall_mem_cons.1 hus
      refine ih _ hrest ?_
      unfold Walk.discover
      split
      · exact hw
      · intro e he
        rcases List.mem_append.1 he with he | he
        · exact hw e he
        · exact List.mem_singleton.1 he ▸ hu
  exact hdiscover _ _ hrs hw.pass

theorem serves_walkStep (hquiet : code.Quiet) (hnamed : code.WellNamed) {w : Walk} (hw : Queued w)
    (ht : ¬DotLed t) (depth : Nat) :
    Serves (Calm code K) Queued (Misses K root)
      ((context code config).walkStep root bound w t depth) := by
  unfold Context.walkStep
  split
  · have hrefs := Run.serves_orUnresolved (F := Misses K root)
      (@serves_directReferences code config K t hquiet hnamed ht) fun f hf => hf.2
    refine hrefs.bind fun answer hanswer => ?_
    cases answer with
    | ok rs => exact serves_pure (hw.expand (hanswer.1 rs rfl) t depth)
    | error u =>
      by_cases hroot : t = root
      · simp only [if_pos hroot]
        exact serves_throw ⟨hroot ▸ (hanswer.2 u rfl).1, u, rfl⟩
      · simp only [if_neg hroot]
        exact (serves_note _).bind fun _ _ => serves_pure hw.pass
  · exact serves_pure hw.pass

theorem serves_walk (hquiet : code.Quiet) (hnamed : code.WellNamed) (fuel : Nat) {w : Walk}
    (hw : Queued w) :
    Serves (Calm code K) (fun _ => True) (Misses K root)
      ((context code config).walk root bound fuel w) := by
  induction fuel generalizing w with
  | zero => exact serves_pure trivial
  | succ fuel ih =>
    unfold Context.walk
    split
    case h_1 => exact serves_pure trivial
    case h_2 current depth rest hqueue =>
      have hcurrent := hw (current, depth) (hqueue ▸ .head _)
      exact (serves_walkStep hquiet hnamed hw hcurrent depth).bind fun w' hw' => ih hw'

theorem serves_closure (hquiet : code.Quiet) (hnamed : code.WellNamed) (hroot : ¬DotLed root)
    (hbound : Bound.ofInt? d = some bound) :
    Serves (Calm code K) (fun _ => True) (Misses K root)
      ((context code config).closure root (some d)) := by
  have hstart : Queued (Walk.start root) := by
    intro e he
    exact List.mem_singleton.1 he ▸ hroot
  unfold Context.closure Context.explore Context.depthOr
  rw [Option.getD_some, hbound]
  unfold Context.exploreWithin
  refine Serves.bind (P := fun _ => True) ?_ fun _ _ => serves_pure trivial
  refine serves_get_bind fun s hs => ?_
  refine (serves_walk hquiet hnamed _ hstart).bind fun w _ => ?_
  dsimp only
  split
  · exact (serves_updateGraph _).bind fun _ _ => serves_pure trivial
  · exact serves_pure trivial

/-! ## §3 Metrics -/

theorem serves_countTypesWith (hquiet : code.Quiet) (hnamed : code.WellNamed) (modifier : String)
    {ts : List TypeName} (hts : ∀ t ∈ ts, ¬DotLed t) :
    Serves (Calm code K) (fun _ => True) (Misses K root)
      ((context code config).countTypesWith modifier ts) := by
  induction ts with
  | nil => exact serves_pure trivial
  | cons t ts ih =>
    obtain ⟨ht, hrest⟩ := List.forall_mem_cons.1 hts
    have hmodifiers := Run.serves_orUnresolved (F := Misses K root)
      (serves_ask (@serves_part code K t hquiet hnamed ht .modifiers).of_map) fun f hf => hf.2
    unfold Context.countTypesWith
    refine hmodifiers.bind fun answer _ => ?_
    cases answer <;> exact (ih hrest).bind fun _ _ => serves_pure trivial

/-- The metrics of a type that is known are told. -/
theorem serves_metrics (hquiet : code.Quiet) (hnamed : code.WellNamed) (ht : ¬DotLed t)
    (hbound : Bound.ofInt? d = some bound) :
    Serves (Calm code K) (fun m => m.type = t) (Misses K t)
      ((context code config).metrics t (some d)) := by
  unfold Context.metrics
  refine (serves_ask (serves_part hquiet hnamed ht .methods).of_map).bind fun methods _ => ?_
  refine (serves_ask (serves_part hquiet hnamed ht .fields).of_map).bind fun fields _ => ?_
  refine (serves_directReferences hquiet hnamed ht).bind fun references hrefs => ?_
  refine (serves_closure hquiet hnamed ht hbound).bind fun associated _ => ?_
  refine (serves_ask (serves_part hquiet hnamed ht .constructors).of_map).bind fun _ _ => ?_
  refine (serves_countTypesWith hquiet hnamed _ hrefs).bind fun interfaceTypes _ => ?_
  exact (serves_countTypesWith hquiet hnamed _ hrefs).bind fun abstractTypes _ => serves_pure rfl

/-- The types are the roots that have metrics and those that are still to be measured, which are
    known, and none has been lost. -/
structure Measuring (K : TypeName → Prop) (roots rest : List TypeName) (rows : Parted Metrics) :
    Prop where
  kept : rows.kept.map Metrics.type ++ rest = roots
  lost : rows.lost = []
  rest : ∀ t ∈ rest, K t ∧ ¬DotLed t

/-- Every root that is known has metrics. -/
theorem serves_measureRoots (hquiet : code.Quiet) (hnamed : code.WellNamed)
    (hbound : Bound.ofInt? d = some bound) {roots : List TypeName}
    (hroots : ∀ t ∈ roots, K t ∧ ¬DotLed t) :
    Serves (Calm code K) (fun rows => rows.kept.map Metrics.type = roots ∧ rows.lost = [])
      (fun _ => False) ((context code config).measureRoots d roots) := by
  unfold Context.measureRoots
  have hstart : Measuring K roots roots {} := ⟨rfl, rfl, hroots⟩
  refine (serves_foldlM (J := Measuring K roots) (fun rows t rest h => ?_) hstart).imp
    fun rows h => ⟨(List.append_nil _).symm.trans h.kept, h.lost⟩
  obtain ⟨⟨hK, ht⟩, hrest⟩ := List.forall_mem_cons.1 h.rest
  have hmetrics := Run.serves_orUnresolved (F := fun _ => False)
    (@serves_metrics code config K t bound d hquiet hnamed ht hbound) fun f hf => hf.2
  refine hmetrics.bind fun answer hanswer => ?_
  cases answer with
  | ok m =>
    refine serves_pure ⟨?_, h.lost, hrest⟩
    rw [List.map_append, List.map_singleton, hanswer.1 m rfl, List.append_assoc]
    exact h.kept
  | error u => exact absurd hK (hanswer.2 u rfl).1

/-! ## §4 Roots -/

/-- What is kept and what is lost after one name more, of which its type or a failure is given. -/
def partName (acc : Parted TypeName) (n : String) : Except Failure TypeName → Parted TypeName
  | .ok t => if t ∈ acc.kept then acc else { acc with kept := acc.kept ++ [t] }
  | .error _ => { acc with lost := acc.lost ++ [n] }

/-- The names parted into the types that they stand for, each once, and the names that stand for
    none, if they are resolved one after the other. -/
def partNames (code : Codebase) (m : Memory) (acc : Parted TypeName) : List String → Parted TypeName
  | [] => acc
  | n :: rest =>
    let (answer, m) := (resolve code n).run m
    partNames code m (partName acc n answer) rest

/-- What is done for one name when roots are registered. -/
def registerRoot (ctx : Context Memory) (acc : Parted TypeName) (n : String) :
    Run Memory (Parted TypeName) := do
  match ← Run.orUnresolved (Run.ask (ctx.provider.resolve n)) with
  | .ok t =>
    if t ∈ acc.kept then return acc
    else
      Run.updateGraph fun g => g.addRoot t
      return { acc with kept := acc.kept ++ [t] }
  | .error _ =>
    Run.note (.skippingUnresolvedRoot n)
    return { acc with lost := acc.lost ++ [n] }

theorem registerRoots_eq_foldlM (ctx : Context Memory) (names : List String) :
    ctx.registerRoots names = names.foldlM (registerRoot ctx) {} := rfl

/-- The session is calm, the roots that are kept are known, and none of them begins with a dot. -/
structure Rooted (code : Codebase) (acc : Parted TypeName) (s : Session Memory) : Prop where
  calm : Calm code (· ∈ acc.kept) s
  plain : ∀ t ∈ acc.kept, ¬DotLed t

/-- The type that a name stands for is known from then on, and it does not begin with a dot. -/
theorem known_of_run_resolve (hnamed : code.WellNamed) {m m' : Memory} (hm : m.Calm code K)
    {n : String} (h : (resolve code n).run m = (.ok t, m')) :
    m'.Calm code (fun u => K u ∨ u = t) ∧ ¬DotLed t := by
  have hcalm := hm.after hnamed (.resolve n)
  have hask : ((Question.resolve n).ask code).run m = (.ok [t], m') := Asking.run_bind_of_ok h
  unfold Memory.after at hcalm
  rw [hask] at hcalm
  rcases hclass : (classOf code n).run m with ⟨f | c, m₁⟩
  · rw [run_resolve_of_error hclass] at h
    cases h
  · rw [run_resolve_of_ok hclass] at h
    cases h
    refine ⟨⟨hcalm.sound, hcalm.reached, hcalm.plain, fun u hu => ?_⟩, ?_⟩
    · rcases hu with hu | rfl
      · exact hcalm.known u hu
      · exact m₁.exists_known_register c
    · have hm₁ := calm_classOf hm n
      rw [hclass] at hm₁
      exact hnamed.not_dotLed_fullName hm₁.sound.closed c

/-- A name that does not begin with a dot is a root, or it is lost. -/
theorem exists_run_registerRoot (hquiet : code.Quiet) (hnamed : code.WellNamed) {n : String}
    (hn : ¬DotLed n) {acc : Parted TypeName} {s : Session Memory} (hs : Rooted code acc s)
    {answer : Except Failure TypeName} {m : Memory}
    (hrun : (resolve code n).run s.memory = (answer, m)) :
    ∃ s', (registerRoot (context code config) acc n).run s = (.ok (partName acc n answer), s') ∧
      s'.memory = m ∧ Rooted code (partName acc n answer) s' := by
  have hasked : (Run.orUnresolved (Run.ask ((context code config).provider.resolve n))).run s =
      (Run.told answer, { s with memory := m }) := by
    rw [Run.run_orUnresolved]
    show (Run.told ((resolve code n).run s.memory).1, _) = _
    rw [hrun]
    show (_, { s with memory := ((resolve code n).run s.memory).2 }) = _
    rw [hrun]
  cases answer with
  | error f =>
    have hask := Asking.run_bind_of_error (k := fun t => pure [t]) hrun
    obtain ⟨-, rfl, -⟩ :=
      failure_of_ask (q := .resolve n) hquiet hnamed hs.calm.memory hn (congrArg Prod.fst hask)
    have hcalm := hs.calm.memory.after hnamed (.resolve n)
    rw [show s.memory.after code (.resolve n) = m from congrArg Prod.snd hask] at hcalm
    exact ⟨_, Asking.run_bind_of_ok hasked, rfl, ⟨hcalm, hs.calm.references⟩, hs.plain⟩
  | ok t =>
    obtain ⟨hcalm, ht⟩ := known_of_run_resolve hnamed hs.calm.memory hrun
    dsimp only [partName]
    by_cases hmem : t ∈ acc.kept
    · refine ⟨{ s with memory := m }, (Asking.run_bind_of_ok hasked).trans ?_, rfl, ?_⟩
      · dsimp only
        rw [if_pos hmem, if_pos hmem]
        rfl
      · rw [if_pos hmem]
        exact ⟨⟨⟨hcalm.sound, hcalm.reached, hcalm.plain, fun u hu => hcalm.known u (.inl hu)⟩,
          hs.calm.references⟩, hs.plain⟩
    · refine ⟨{ s with memory := m, graph := s.graph.addRoot t },
        (Asking.run_bind_of_ok hasked).trans ?_, rfl, ?_⟩
      · dsimp only
        rw [if_neg hmem, if_neg hmem]
        rfl
      · rw [if_neg hmem]
        refine ⟨⟨⟨hcalm.sound, hcalm.reached, hcalm.plain, fun u hu => hcalm.known u ?_⟩,
          hs.calm.references⟩, fun u hu => ?_⟩
        · exact (List.mem_append.1 hu).imp_right List.mem_singleton.1
        · rcases List.mem_append.1 hu with hu | hu
          · exact hs.plain u hu
          · exact List.mem_singleton.1 hu ▸ ht

/-- Registering names that do not begin with a dot parts them. -/
theorem exists_run_registerRoots (hquiet : code.Quiet) (hnamed : code.WellNamed)
    {names : List String} (hnames : ∀ n ∈ names, ¬DotLed n) {acc : Parted TypeName}
    {s : Session Memory} (hs : Rooted code acc s) :
    ∃ s', (names.foldlM (registerRoot (context code config)) acc).run s =
        (.ok (partNames code s.memory acc names), s') ∧
      Rooted code (partNames code s.memory acc names) s' := by
  induction names generalizing acc s with
  | nil => exact ⟨s, rfl, hs⟩
  | cons n names ih =>
    obtain ⟨hn, hrest⟩ := List.forall_mem_cons.1 hnames
    rcases hrun : (resolve code n).run s.memory with ⟨answer, m⟩
    obtain ⟨s₁, hstep, rfl, hs₁⟩ := exists_run_registerRoot hquiet hnamed hn hs hrun
    obtain ⟨s', hfold, hs'⟩ := ih hrest hs₁
    refine ⟨s', ?_⟩
    rw [List.foldlM_cons, Asking.run_bind_of_ok hstep, partNames, hrun]
    exact ⟨hfold, hs'⟩

/-- Registering names comes to an end at the first one that begins with a dot. -/
theorem run_registerRoots_of_dotLed (hquiet : code.Quiet) (hnamed : code.WellNamed)
    {before after : List String} {n : String} (hbefore : ∀ n ∈ before, ¬DotLed n) (hn : DotLed n)
    {s : Session Memory} (hs : Rooted code {} s) :
    (((before ++ n :: after).foldlM (registerRoot (context code config)) {}).run s).1 =
      .error (.importing (dotFault n)) := by
  obtain ⟨s₁, hrun, hs₁⟩ := @exists_run_registerRoots code config hquiet hnamed _ hbefore _ _ hs
  have hfind : (classOf code n).run s₁.memory = (.error (.importing (dotFault n)), s₁.memory) :=
    run_classOf_of_dotLed hs₁.calm.memory hn
  have hasked : (Run.orUnresolved (Run.ask ((context code config).provider.resolve n))).run s₁ =
      (.error (.importing (dotFault n)), s₁) := by
    rw [Run.run_orUnresolved]
    show (Run.told ((resolve code n).run s₁.memory).1,
      { s₁ with memory := ((resolve code n).run s₁.memory).2 }) = _
    rw [run_resolve_of_error hfind]
    rfl
  rw [List.foldlM_append, Asking.run_bind_of_ok hrun, List.foldlM_cons]
  exact congrArg Prod.fst (Asking.run_bind_of_error (Asking.run_bind_of_error hasked))

/-! ## §5 Lookups -/

/-- How looking names up ends when so much is remembered. -/
structure FailsByDots (code : Codebase) (config : Config) (m : Memory) : Prop where
  /-- A name that begins with a dot is a fault, -/
  resolve_dotLed : ∀ name, DotLed name →
    (resolve code name).run m = (.error (.importing (dotFault name)), m)
  /-- any other name is resolved or not. -/
  resolve_other : ∀ name, ¬DotLed name →
    ((resolve code name).run m).1 = .error (.unresolved name) ∨
      ∃ t, ((resolve code name).run m).1 = .ok t
  /-- A search for a name that begins with a dot, blanks apart, is a fault, -/
  search_dotLed : ∀ name, DotLed (Text.strip name) →
    (search code name).run m = (.error (.importing (dotFault (Text.strip name))), m)
  /-- and for any other name it gives what the name resolves to. -/
  search_other : ∀ name, ¬DotLed (Text.strip name) → ∃ ts,
    ((search code name).run m).1 = .ok ts ∧
      ∀ t, t ∈ ts ↔ ((resolve code (Text.strip name)).run m).1 = .ok t
  /-- An analysis ends at the first name that begins with a dot, -/
  analysis_dotLed : ∀ names depth n, (cleanNames names).find? (DotLed ·) = some n →
    (((context code config).analysis names depth).run { memory := m }).1 =
      .error (.importing (dotFault n))
  /-- and without one it completes: every name is a root, or reported as unresolved. -/
  analysis_other : ∀ names depth, (∀ d ∈ depth, -1 ≤ d) → (∀ n ∈ cleanNames names, ¬DotLed n) →
    ∃ a, (((context code config).analysis names depth).run { memory := m }).1 = .ok a ∧
      a.roots = (partNames code m {} (cleanNames names)).kept ∧
      a.unresolved = (partNames code m {} (cleanNames names)).lost

theorem rooted_start {m : Memory} (hm : m.Calm code fun _ => False) :
    Rooted code {} ({ memory := m } : Session Memory) where
  calm := {
    memory := ⟨hm.sound, hm.reached, hm.plain, nofun⟩
    references := nofun }
  plain := nofun

/-- A name that does not begin with a dot is not resolved, or it is. -/
theorem resolved_of_not_dotLed (hquiet : code.Quiet) (hnamed : code.WellNamed) {m : Memory}
    (hm : m.Calm code K) {name : TypeName} (hname : ¬DotLed name) :
    ((resolve code name).run m).1 = .error (.unresolved name) ∨
      ∃ t, ((resolve code name).run m).1 = .ok t := by
  rcases hrun : (resolve code name).run m with ⟨f | t, m'⟩
  · have hask := Asking.run_bind_of_error (k := fun t => pure [t]) hrun
    obtain ⟨-, rfl, -⟩ :=
      failure_of_ask (q := .resolve name) hquiet hnamed hm hname (congrArg Prod.fst hask)
    exact .inl rfl
  · exact .inr ⟨t, rfl⟩

/-- An analysis of names that do not begin with a dot completes. -/
theorem exists_run_analysis_of_not_dotLed (hquiet : code.Quiet) (hnamed : code.WellNamed)
    {m : Memory} (hm : m.Calm code fun _ => False) {names : List String} {depth : Option Int}
    (hdepth : ∀ d ∈ depth, -1 ≤ d) (hnames : ∀ n ∈ cleanNames names, ¬DotLed n) :
    ∃ a, (((context code config).analysis names depth).run { memory := m }).1 = .ok a ∧
      a.roots = (partNames code m {} (cleanNames names)).kept ∧
      a.unresolved = (partNames code m {} (cleanNames names)).lost := by
  obtain ⟨bound, hbound⟩ : ∃ bound,
      Bound.ofInt? ((context code config).depthOr depth) = some bound := by
    unfold Context.depthOr
    cases depth with
    | none => exact ⟨_, Bound.ofInt?_toInt _⟩
    | some d =>
      rw [Option.getD_some, ← Option.ne_none_iff_exists', ne_eq, Bound.ofInt?_eq_none_iff]
      have hd := hdepth d rfl
      omega
  obtain ⟨s₁, hroots, hs₁⟩ :=
    @exists_run_registerRoots code config hquiet hnamed _ hnames _ _ (rooted_start hm)
  rw [← registerRoots_eq_foldlM] at hroots
  have hmeasured := @serves_measureRoots code config (· ∈ (partNames code m {} _).kept) bound _
    hquiet hnamed hbound _ fun t ht => ⟨ht, hs₁.plain t ht⟩
  rcases hrows : ((context code config).measureRoots ((context code config).depthOr depth)
    (partNames code m {} (cleanNames names)).kept).run s₁ with ⟨f | rows, s₂⟩
  · exact (hmeasured.failure s₁ f hs₁.calm (congrArg Prod.fst hrows)).elim
  · obtain ⟨hkept, hlost⟩ := hmeasured.result s₁ rows hs₁.calm (congrArg Prod.fst hrows)
    let a : Analysis := {
      depth := (context code config).depthOr depth
      metrics := rows.kept
      unresolved := (partNames code m {} (cleanNames names)).lost ++ rows.lost
      nodes := s₂.graph.nodeRows
      edges := s₂.graph.edgeRows }
    have hrun : ((context code config).analysis names depth).run { memory := m } = (.ok a, s₂) :=
      (Asking.run_bind_of_ok hroots).trans (Asking.run_bind_of_ok hrows)
    have hunresolved : a.unresolved = (partNames code m {} (cleanNames names)).lost := by
      rw [show a.unresolved = _ ++ rows.lost from rfl, hlost, List.append_nil]
    exact ⟨a, congrArg Prod.fst hrun, hkept, hunresolved⟩

/-- In a quiet codebase, whatever has been asked before, names fail to resolve by being unresolved,
    unless they begin with a dot: importing is then a fault, which ends searches and analyses as
    well. -/
theorem lookups_fail_by_dots (hquiet : code.Quiet) (hnamed : code.WellNamed)
    (before : List Question) (config : Config) :
    FailsByDots code config (code.after before) := by
  have hm := calm_after hnamed before
  generalize code.after before = m at hm ⊢
  have hresolve : ∀ name, DotLed name →
      (resolve code name).run m = (.error (.importing (dotFault name)), m) :=
    fun name hname => run_resolve_of_error (run_classOf_of_dotLed hm hname)
  refine ⟨hresolve, fun name hname => resolved_of_not_dotLed hquiet hnamed hm hname, ?_, ?_, ?_, ?_⟩
  · intro name hname
    exact Asking.run_bind_of_error (run_resolve?_of_error (run_classOf_of_dotLed hm hname))
  · intro name hname
    rcases hclass : (classOf code (Text.strip name)).run m with ⟨f | c, m₁⟩
    · obtain ⟨-, rfl⟩ := failure_of_classOf hquiet hm hname (congrArg Prod.fst hclass)
      have hnone : (search code name).run m = (.ok [], m₁) :=
        Asking.run_bind_of_ok (run_resolve?_of_error hclass)
      refine ⟨[], congrArg Prod.fst hnone, fun t => ?_⟩
      rw [run_resolve_of_error hclass]
      exact ⟨nofun, nofun⟩
    · have hsome : (search code name).run m =
          (.ok [m₁.world.fullName c], m₁.register c) :=
        Asking.run_bind_of_ok (run_resolve?_of_ok hclass)
      refine ⟨_, congrArg Prod.fst hsome, fun t => ?_⟩
      rw [run_resolve_of_ok hclass, List.mem_singleton]
      exact ⟨fun h => h ▸ rfl, fun h => (Except.ok.inj h).symm⟩
  · intro names depth n hfind
    obtain ⟨hn, before, after, hsplit, hbefore⟩ := List.find?_eq_some_iff_append.1 hfind
    have hroots := @run_registerRoots_of_dotLed code config hquiet hnamed before after n
      (by simpa using hbefore) (of_decide_eq_true hn) _ (rooted_start hm)
    rw [← hsplit] at hroots
    exact congrArg Prod.fst (Asking.run_bind_of_error (Prod.ext hroots rfl))
  · exact fun names depth hdepth hnames =>
      exists_run_analysis_of_not_dotLed hquiet hnamed hm hdepth hnames

/-- A module with a class. -/
def singleCodebase : Codebase where
  modules := [{ name := ["pm"], items := [.cls none "A" [] [] false] }]

/-- The class is found by its name. Without the name of the module in front, the name is a fault,
    which leaves the class unanalysed as well. -/
theorem lookups_fail_by_dots_single :
    singleCodebase.IsPlain ∧ singleCodebase.WellNamed ∧
      FailsByDots singleCodebase {} (singleCodebase.after [.resolve "pm.A"]) ∧
      ((resolve singleCodebase "pm.A").run Memory.start).1 = .ok "pm.A" ∧
      (((context singleCodebase {}).analysis ["pm.A", " .A"] none).run
        { memory := singleCodebase.after [.resolve "pm.A"] }).1 =
          .error (.importing .emptyName) := by
  have hplain : singleCodebase.IsPlain := by
    intro m hm
    cases List.mem_singleton.1 hm
    refine ⟨fun item hitem => ?_, rfl⟩
    cases List.mem_singleton.1 hitem
    exact ⟨"A", rfl⟩
  have hnamed : singleCodebase.WellNamed := by
    unfold WellNamed
    decide
  have hfails := lookups_fail_by_dots hplain.quiet hnamed [.resolve "pm.A"] {}
  refine ⟨hplain, hnamed, hfails, ?_, ?_⟩
  · decide +kernel
  · exact hfails.analysis_dotLed _ _ ".A" (by decide +kernel)

end Codebase

end TypeAtlas
