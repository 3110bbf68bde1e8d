import TypeAtlas.Proofs.Closure.Reachability
import TypeAtlas.Proofs.Session.OnRecord

/-!
# What an exploration depends on

An exploration to a depth depends on the direct references of the types within that depth, and on
nothing else: two contexts that say the same of these explore alike, whatever their providers and
settings are. The walks are taken side by side, each in a session of its own. They have the same
queue at every step, so they ask about the same types in the same order, and the types beyond the
depth are never asked about.

The answers of a provider may depend on what it has been asked before. So they are compared after
the same questions.

Main statements: `Context.SaysAlike.explore` and `TypeIndex.exploration_is_local`.
-/

namespace TypeAtlas

open Schema

/-! ## §1 What a context says of the types near a root -/

namespace Context

variable {σ σ' : Type}

/-- What a context answers in a session when it is asked for the direct references of a type, after
    it has been asked for those of other types. -/
def answerAfter (ctx : Context σ) (s : Session σ) (asked : List TypeName) (t : TypeName) :
    Except Failure NameSet :=
  ((ctx.directReferences t).run (ctx.after s (asked.map Step.direct))).1

/-- So many references lead from the root to a type, each of them told at some time. -/
inductive Within (ctx : Context σ) (s : Session σ) (root : TypeName) : Nat → TypeName → Prop where
  | root : Within ctx s root 0 root
  | tail {n : Nat} {u t : TypeName} {asked : List TypeName} {rs : NameSet} :
      Within ctx s root n u → ctx.answerAfter s asked u = .ok rs → t ∈ rs →
      Within ctx s root (n + 1) t

/-- The type is no further away from the root than the depth, or at any distance if the depth is
    minus one. -/
def Near (ctx : Context σ) (s : Session σ) (root : TypeName) (d : Int) (t : TypeName) : Prop :=
  ∃ n : Nat, (d = -1 ∨ (n : Int) ≤ d) ∧ ctx.Within s root n t

/-- All names that types near the root reference are among these. -/
def NamesNear (ctx : Context σ) (s : Session σ) (root : TypeName) (d : Int)
    (names : List TypeName) : Prop :=
  ∀ u, ctx.Near s root d u → ∀ asked rs, ctx.answerAfter s asked u = .ok rs → ∀ t ∈ rs, t ∈ names

/-- Two outcomes are the same, or both say that a type cannot be described. -/
inductive SameOrUnresolved {α : Type} : Except Failure α → Except Failure α → Prop where
  | same (o : Except Failure α) : SameOrUnresolved o o
  | unresolved (n n' : TypeName) :
      SameOrUnresolved (.error (.unresolved n)) (.error (.unresolved n'))

/-- The two contexts say the same of the types near the root, whatever they have been asked about
    such types before. Neither has less capacity than there are names. -/
structure SaysAlike (ctx : Context σ) (ctx' : Context σ') (s : Session σ) (s' : Session σ')
    (root : TypeName) (d : Int) : Prop where
  alike : ∀ asked, (∀ v ∈ asked, ctx.Near s root d v) → ∀ u, ctx.Near s root d u →
    SameOrUnresolved (ctx.answerAfter s asked u) (ctx'.answerAfter s' asked u)
  room : ∃ names, ctx.NamesNear s root d names ∧ names.length ≤ ctx.provider.capacity s.memory
  room' : ∃ names, ctx.NamesNear s root d names ∧ names.length ≤ ctx'.provider.capacity s'.memory

/-- Two outcomes of walks from the root are the same, or each is what its context says when it
    cannot describe the root. -/
inductive SameFrom (ctx : Context σ) (ctx' : Context σ') (s : Session σ) (s' : Session σ')
    (root : TypeName) {α : Type} : Except Failure α → Except Failure α → Prop where
  | same (o : Except Failure α) : SameFrom ctx ctx' s s' root o o
  | root {n n' : TypeName} : ctx.answerAfter s [] root = .error (.unresolved n) →
      ctx'.answerAfter s' [] root = .error (.unresolved n') →
      SameFrom ctx ctx' s s' root (.error (.unresolved n)) (.error (.unresolved n'))

/-- Giving answers another form leaves them as much the same. -/
theorem SameFrom.map {ctx : Context σ} {ctx' : Context σ'} {s : Session σ} {s' : Session σ'}
    {root : TypeName} {α β : Type} {o o' : Except Failure α} (form : α → β)
    (h : SameFrom ctx ctx' s s' root o o') :
    SameFrom ctx ctx' s s' root (o.map form) (o'.map form) := by
  cases h with
  | same o => exact .same _
  | root hn hn' => exact .root hn hn'

/-! ## §2 Sessions that differ in their logs -/

end Context

/-- Two sessions are the same but for what they have noted. -/
structure Session.SameButLog {σ : Type} (s s' : Session σ) : Prop where
  memory : s'.memory = s.memory
  descriptors : s'.descriptors = s.descriptors
  graph : s'.graph = s.graph

namespace Context

variable {σ σ' : Type} {ctx : Context σ} {ctx' : Context σ'}

/-- The log makes no difference to direct references. -/
theorem inStep_directReferences_sameButLog (t : TypeName) :
    Run.InStep Session.SameButLog Eq (ctx.directReferences t) (ctx.directReferences t) := by
  refine inStep_directReferences ctx.provider.matches_refl (fun _ => rfl)
    (fun _ _ hs => hs.memory) (fun _ _ hs => hs.descriptors) ?_
    (fun _ _ hs x => ⟨rfl, hs.descriptors, hs.graph⟩) ?_ t
  · exact fun n s s' hs => ⟨.answered rfl, hs.memory, hs.descriptors, hs.graph⟩
  · exact fun s s' hs t rs => ⟨hs.memory, congrArg (OrdMap.insert t rs) hs.descriptors,
      congrArg (Graph.addAll · rs.toList t) hs.graph⟩

/-- A further question about direct references, at the end of others. -/
theorem after_direct_append (s : Session σ) (asked : List TypeName) (t : TypeName) :
    ctx.after s ((asked ++ [t]).map Step.direct) =
      ((ctx.directReferences t).run (ctx.after s (asked.map Step.direct))).2 := by
  unfold after
  rw [List.map_append, List.foldl_append]
  exact congrArg Prod.snd (Asking.run_map (ctx.directReferences t) Answer.typeSet _)

/-- The session is, but for its log, the one after questions about these types. -/
def HasAsked (ctx : Context σ) (s : Session σ) (asked : List TypeName) (s₁ : Session σ) : Prop :=
  (ctx.after s (asked.map Step.direct)).SameButLog s₁

/-- What a session that has asked about some types answers, and what it has asked then. -/
theorem HasAsked.direct {s s₁ : Session σ} {asked : List TypeName}
    (h : ctx.HasAsked s asked s₁) (t : TypeName) :
    ((ctx.directReferences t).run s₁).1 = ctx.answerAfter s asked t ∧
      ctx.HasAsked s (asked ++ [t]) ((ctx.directReferences t).run s₁).2 := by
  obtain ⟨hval, hnext⟩ := inStep_directReferences_sameButLog t _ _ h
  unfold HasAsked
  rw [after_direct_append]
  exact ⟨(agree_eq_iff.1 hval).symm, hnext⟩

/-! ## §3 Walks side by side -/

/-- The types that a walk has asked about: those that it has looked at within the bound. -/
def asked (bound : Bound) (done : List (TypeName × Nat)) : List TypeName :=
  (done.filter fun e => bound.admits e.2).map Prod.fst

/-- What holds all through a walk from the root: it has found the root first, each type once, and
    only types that the context tells of. -/
structure Nearby (ctx : Context σ) (s : Session σ) (root : TypeName) (d : Int)
    (done : List (TypeName × Nat)) (w : Walk) : Prop where
  divided : w.Divided done
  first : ∃ later, w.depths = (root, 0) :: later
  within : ∀ e ∈ w.depths, ctx.Within s root e.2 e.1
  told : ∀ e ∈ w.depths, e.1 = root ∨ ∃ u, ctx.Near s root d u ∧
    ∃ asked rs, ctx.answerAfter s asked u = .ok rs ∧ e.1 ∈ rs

namespace Nearby

variable {s : Session σ} {root : TypeName} {d : Int} {bound : Bound}
  {done rest : List (TypeName × Nat)} {w w' : Walk} {t : TypeName} {k : Nat}

theorem start (ctx : Context σ) (s : Session σ) (root : TypeName) (d : Int) :
    ctx.Nearby s root d [] (.start root) where
  divided := ⟨rfl, List.nodup_singleton root⟩
  first := ⟨[], rfl⟩
  within e he := by
    cases List.mem_singleton.1 he
    exact .root
  told e he := by
    cases List.mem_singleton.1 he
    exact .inl rfl

theorem near (h : ctx.Nearby s root d done w) (hb : Bound.ofInt? d = some bound)
    {e : TypeName × Nat} (he : e ∈ w.depths) (hadmits : bound.admits e.2 = true) :
    ctx.Near s root d e.1 :=
  ⟨e.2, (Bound.admits_iff hb).1 hadmits, h.within e he⟩

/-- Only types near the root are asked about. -/
theorem near_of_mem_asked (h : ctx.Nearby s root d done w) (hb : Bound.ofInt? d = some bound) :
    ∀ v ∈ asked bound done, ctx.Near s root d v := by
  intro v hv
  obtain ⟨e, he, rfl⟩ := List.mem_map.1 hv
  obtain ⟨hdone, hadmits⟩ := List.mem_filter.1 he
  apply h.near hb _ hadmits
  rw [h.divided.split]
  exact List.mem_append_left _ hdone

theorem mem_depths (h : ctx.Nearby s root d done w) (hq : w.queue = (t, k) :: rest) :
    (t, k) ∈ w.depths := by
  rw [h.divided.split, hq]
  exact List.mem_append_right _ List.mem_cons_self

/-- The root is looked at before anything is asked. -/
theorem done_eq_nil (h : ctx.Nearby s root d done w) (hq : w.queue = (root, k) :: rest) :
    done = [] := by
  obtain ⟨later, hfirst⟩ := h.first
  cases done with
  | nil => rfl
  | cons e done =>
    -- what was looked at first is the root, and nothing is looked at twice
    have hsplit := hfirst.symm.trans h.divided.split
    rw [List.cons_append, List.cons.injEq] at hsplit
    have hne := h.divided.ne_of_mem hq e List.mem_cons_self
    rw [← hsplit.1] at hne
    exact absurd rfl hne

/-- Expanding a type finds what the context tells of it. -/
theorem expand (h : ctx.Nearby s root d done w) (hb : Bound.ofInt? d = some bound)
    (hq : w.queue = (t, k) :: rest) (hk : bound.admits k = true) {asked : List TypeName}
    {rs : NameSet} (hrs : ctx.answerAfter s asked t = .ok rs) :
    ctx.Nearby s root d (done ++ [(t, k)]) (w.expand t k rs) := by
  -- what is found is new, one further away than `t`, and told of `t`
  have ht := h.mem_depths hq
  have hfresh : ∀ e ∈ (w.fresh rs).map fun u => (u, k + 1), e.2 = k + 1 ∧ e.1 ∈ rs := by
    intro e he
    obtain ⟨u, hu, rfl⟩ := List.mem_map.1 he
    exact ⟨rfl, (Walk.mem_fresh_iff.1 hu).1⟩
  refine { divided := h.divided.expand hq rs, first := ?first, within := ?within, told := ?told }
  case first =>
    obtain ⟨later, hfirst⟩ := h.first
    rw [Walk.expand_eq, hfirst]
    exact ⟨_, rfl⟩
  case within =>
    intro e he
    rw [Walk.expand_eq] at he
    rcases List.mem_append.1 he with hold | hnew
    · exact h.within e hold
    · obtain ⟨hdepth, hmem⟩ := hfresh e hnew
      rw [hdepth]
      exact (h.within (t, k) ht).tail hrs hmem
  case told =>
    intro e he
    rw [Walk.expand_eq] at he
    rcases List.mem_append.1 he with hold | hnew
    · exact h.told e hold
    · exact .inr ⟨t, h.near hb ht hk, asked, rs, hrs, (hfresh e hnew).2⟩

/-- Leaving a type behind finds nothing. -/
theorem skip (h : ctx.Nearby s root d done w) (hq : w.queue = (t, k) :: rest)
    (hdepths : w'.depths = w.depths) (hqueue : w'.queue = w.queue.tail) :
    ctx.Nearby s root d (done ++ [(t, k)]) w' where
  divided := h.divided.skip hq hdepths hqueue
  first := by rw [hdepths]; exact h.first
  within := by rw [hdepths]; exact h.within
  told := by rw [hdepths]; exact h.told

/-- A walk that has looked at more types than there are names is at its end. -/
theorem queue_eq_nil (h : ctx.Nearby s root d done w) {names : List TypeName}
    (hnames : ctx.NamesNear s root d names) (hdone : names.length + 1 ≤ done.length) :
    w.queue = [] := by
  have hsub : w.depths.map Prod.fst ⊆ root :: names := by
    intro u hu
    obtain ⟨e, he, rfl⟩ := List.mem_map.1 hu
    rcases h.told e he with hroot | ⟨v, hv, asked, rs, hrs, hmem⟩
    · exact List.mem_cons.2 (.inl hroot)
    · exact List.mem_cons_of_mem root (hnames v hv asked rs hrs e.1 hmem)
  have hle := List.Nodup.length_le_of_subset h.divided.distinct hsub
  rw [List.length_map, h.divided.split, List.length_append, List.length_cons] at hle
  exact List.eq_nil_of_length_eq_zero (by omega)

end Nearby

section SideBySide

variable {s : Session σ} {s' : Session σ'} {root : TypeName} {d : Int} {bound : Bound}
  {done rest : List (TypeName × Nat)} {w : Walk} {t : TypeName} {k : Nat}

/-- What a step makes of two walks that are the same: they are so again, and their sessions have
    asked the same. Or both fail alike, or neither context can describe the root. -/
inductive StepsAlike (ctx : Context σ) (ctx' : Context σ') (s : Session σ) (s' : Session σ')
    (root : TypeName) (d : Int) (bound : Bound) (done : List (TypeName × Nat)) :
    Except Failure Walk × Session σ → Except Failure Walk × Session σ' → Prop where
  | goesOn {w : Walk} {s₁ : Session σ} {s₁' : Session σ'} : ctx.Nearby s root d done w →
      ctx.HasAsked s (asked bound done) s₁ → ctx'.HasAsked s' (asked bound done) s₁' →
      StepsAlike ctx ctx' s s' root d bound done (.ok w, s₁) (.ok w, s₁')
  | failed (f : Failure) (s₁ : Session σ) (s₁' : Session σ') :
      StepsAlike ctx ctx' s s' root d bound done (.error f, s₁) (.error f, s₁')
  | root {n n' : TypeName} (s₁ : Session σ) (s₁' : Session σ') :
      ctx.answerAfter s [] root = .error (.unresolved n) →
      ctx'.answerAfter s' [] root = .error (.unresolved n') →
      StepsAlike ctx ctx' s s' root d bound done (.error (.unresolved n), s₁)
        (.error (.unresolved n'), s₁')

theorem asked_append_of_admits (done : List (TypeName × Nat)) (hk : bound.admits k = true) :
    asked bound (done ++ [(t, k)]) = asked bound done ++ [t] := by
  simp [asked, hk]

theorem asked_append_of_not_admits (done : List (TypeName × Nat)) (hk : ¬ bound.admits k = true) :
    asked bound (done ++ [(t, k)]) = asked bound done := by
  simp [asked, hk]

/-- A type that neither context can describe is given up on both sides, whatever the failures call
    it, unless it is the root. -/
theorem Nearby.givesUp (hw : ctx.Nearby s root d done w) (hq : w.queue = (t, k) :: rest)
    {n n' : TypeName} (hn : ctx.answerAfter s (asked bound done) t = .error (.unresolved n))
    (hn' : ctx'.answerAfter s' (asked bound done) t = .error (.unresolved n'))
    {s₂ : Session σ} {s₂' : Session σ'}
    (hs : ctx.HasAsked s (asked bound (done ++ [(t, k)])) s₂)
    (hs' : ctx'.HasAsked s' (asked bound (done ++ [(t, k)])) s₂') :
    StepsAlike ctx ctx' s s' root d bound (done ++ [(t, k)])
      (if t = root then (.error (.unresolved n), s₂)
        else (.ok (w.giveUp t),
          { s₂ with log := s₂.log ++ [.skippingNeighbour t (w.parent? t)] }))
      (if t = root then (.error (.unresolved n'), s₂')
        else (.ok (w.giveUp t),
          { s₂' with log := s₂'.log ++ [.skippingNeighbour t (w.parent? t)] })) := by
  by_cases hroot : t = root
  · subst hroot
    rw [if_pos rfl, if_pos rfl]
    -- the root is looked at first, so nothing has been asked before
    have hdone := hw.done_eq_nil hq
    subst hdone
    exact .root s₂ s₂' hn hn'
  · rw [if_neg hroot, if_neg hroot]
    exact .goesOn (hw.skip hq rfl rfl) ⟨hs.memory, hs.descriptors, hs.graph⟩
      ⟨hs'.memory, hs'.descriptors, hs'.graph⟩

/-- Two walks that are the same take the same step, or both fail there. -/
theorem SaysAlike.walkStep (h : SaysAlike ctx ctx' s s' root d) (hb : Bound.ofInt? d = some bound)
    (hw : ctx.Nearby s root d done w) (hq : w.queue = (t, k) :: rest) {s₁ : Session σ}
    {s₁' : Session σ'} (hs : ctx.HasAsked s (asked bound done) s₁)
    (hs' : ctx'.HasAsked s' (asked bound done) s₁') :
    StepsAlike ctx ctx' s s' root d bound (done ++ [(t, k)])
      ((ctx.walkStep root bound w t k).run s₁) ((ctx'.walkStep root bound w t k).run s₁') := by
  by_cases hk : bound.admits k = true
  · -- both sides ask about the type, which is a near one, after the same questions
    obtain ⟨hval, hnext⟩ := hs.direct t
    obtain ⟨hval', hnext'⟩ := hs'.direct t
    have halike := h.alike _ (hw.near_of_mem_asked hb) t (hw.near hb (hw.mem_depths hq) hk)
    rw [← asked_append_of_admits done hk] at hnext hnext'
    rw [run_walkStep_of_admits hk, run_walkStep_of_admits hk]
    rcases hr : (ctx.directReferences t).run s₁ with ⟨o, s₂⟩
    rcases hr' : (ctx'.directReferences t).run s₁' with ⟨o', s₂'⟩
    rw [hr] at hval hnext
    rw [hr'] at hval' hnext'
    rw [← hval, ← hval'] at halike
    cases halike with
    | unresolved n n' => exact hw.givesUp hq hval.symm hval'.symm hnext hnext'
    | same =>
      -- the same answer is an expansion, and the same failure ends both walks unless it is about
      -- a type that is not resolved
      rcases o with (n | depth | fault) | rs
      case error.unresolved => exact hw.givesUp hq hval.symm hval'.symm hnext hnext'
      case ok => exact .goesOn (hw.expand hb hq hk hval.symm) hnext hnext'
      case error.depthBelow => exact .failed _ s₂ s₂'
      case error.importing => exact .failed _ s₂ s₂'
  · -- beyond the bound neither side asks
    unfold Context.walkStep
    rw [if_neg hk, if_neg hk]
    rw [← asked_append_of_not_admits done hk] at hs hs'
    exact .goesOn (hw.skip hq rfl rfl) hs hs'

theorem run_walk_of_queue_eq_nil (hq : w.queue = []) (fuel : Nat) (s : Session σ) :
    (ctx.walk root bound fuel w).run s = (.ok w, s) := by
  cases fuel with
  | zero => rfl
  | succ fuel =>
    unfold walk
    rw [hq]
    rfl

theorem sameFrom_walk_of_queue_eq_nil (hq : w.queue = []) (fuel fuel' : Nat) (s₁ : Session σ)
    (s₁' : Session σ') : SameFrom ctx ctx' s s' root ((ctx.walk root bound fuel w).run s₁).1
      ((ctx'.walk root bound fuel' w).run s₁').1 := by
  rw [run_walk_of_queue_eq_nil hq, run_walk_of_queue_eq_nil hq]
  exact .same _

/-- Two walks that are the same come to the same end, or both fail, if both have enough fuel. The
    fuel need not be the same. -/
theorem SaysAlike.walk (h : SaysAlike ctx ctx' s s' root d) (hb : Bound.ofInt? d = some bound)
    {names names' : List TypeName} (hnames : ctx.NamesNear s root d names)
    (hnames' : ctx.NamesNear s root d names') {fuel fuel' : Nat}
    (hfuel : names.length + 1 ≤ fuel + done.length)
    (hfuel' : names'.length + 1 ≤ fuel' + done.length) (hw : ctx.Nearby s root d done w)
    {s₁ : Session σ} {s₁' : Session σ'} (hs : ctx.HasAsked s (asked bound done) s₁)
    (hs' : ctx'.HasAsked s' (asked bound done) s₁') :
    SameFrom ctx ctx' s s' root ((ctx.walk root bound fuel w).run s₁).1
      ((ctx'.walk root bound fuel' w).run s₁').1 := by
  -- a walk that has no fuel left has looked at more types than there are names
  induction fuel generalizing fuel' done w s₁ s₁' with
  | zero => exact sameFrom_walk_of_queue_eq_nil (hw.queue_eq_nil hnames (by omega)) _ _ _ _
  | succ fuel ih =>
    cases fuel' with
    | zero => exact sameFrom_walk_of_queue_eq_nil (hw.queue_eq_nil hnames' (by omega)) _ _ _ _
    | succ fuel' =>
      cases hq : w.queue with
      | nil => exact sameFrom_walk_of_queue_eq_nil hq _ _ _ _
      | cons e rest =>
        obtain ⟨t, k⟩ := e
        have hstep := h.walkStep hb hw hq hs hs'
        unfold Context.walk
        rw [hq]
        simp only
        rcases hr : (ctx.walkStep root bound w t k).run s₁ with ⟨o, s₂⟩
        rcases hr' : (ctx'.walkStep root bound w t k).run s₁' with ⟨o', s₂'⟩
        rw [hr, hr'] at hstep
        -- only two walks that go on are compared any further
        cases hstep with
        | failed f =>
          rw [Asking.run_bind_of_error hr, Asking.run_bind_of_error hr']
          exact .same _
        | root _ _ hn hn' =>
          rw [Asking.run_bind_of_error hr, Asking.run_bind_of_error hr']
          exact .root hn hn'
        | goesOn hw₂ hs₂ hs₂' =>
          rw [Asking.run_bind_of_ok hr, Asking.run_bind_of_ok hr']
          have hdone : (done ++ [(t, k)]).length = done.length + 1 := by simp
          exact ih (by omega) (by omega) hw₂ hs₂ hs₂'

/-- What is drawn after the walk of an exploration makes no difference to its outcome. -/
theorem outcome_exploreWithin (ctx : Context σ) (root : TypeName) (bound : Bound) (s : Session σ) :
    ((ctx.exploreWithin root bound).run s).1 =
      ((ctx.walk root bound (ctx.provider.capacity s.memory + 2) (.start root)).run s).1.map
        fun w => w.exploration root bound := by
  unfold exploreWithin
  rw [Asking.run_bind_of_ok (Run.run_get s)]
  rcases hwalk : (ctx.walk root bound (ctx.provider.capacity s.memory + 2) (.start root)).run s with
    ⟨f | w, s₁⟩
  · rw [Asking.run_bind_of_error hwalk]
    rfl
  · rw [Asking.run_bind_of_ok hwalk, run_drawing]
    rfl

/-- Two contexts that say the same of the types near the root explore alike, to whatever depth that
    may be. -/
theorem SaysAlike.explore (h : SaysAlike ctx ctx' s s' root d) :
    SameFrom ctx ctx' s s' root ((ctx.explore root d).run s).1
      ((ctx'.explore root d).run s').1 := by
  unfold Context.explore
  cases hb : Bound.ofInt? d with
  | none => exact .same _
  | some bound =>
    show SameFrom ctx ctx' s s' root ((ctx.exploreWithin root bound).run s).1
      ((ctx'.exploreWithin root bound).run s').1
    obtain ⟨names, hnames, hroom⟩ := h.room
    obtain ⟨names', hnames', hroom'⟩ := h.room'
    rw [outcome_exploreWithin, outcome_exploreWithin]
    apply SameFrom.map
    exact h.walk hb hnames hnames' (by simpa using Nat.le_succ_of_le hroom)
      (by simpa using Nat.le_succ_of_le hroom') (.start ctx s root d) ⟨rfl, rfl, rfl⟩
      ⟨rfl, rfl, rfl⟩

end SideBySide

end Context

/-! ## §4 Over indexes -/

namespace TypeIndex

variable {x x' : TypeIndex} {blind blind' : List TypeName} {config config' : Config}
  {s s' : Session Unit} {root : TypeName} {d : Int}

/-- The type is no more references away from the root than the depth. -/
def IsNear (x : TypeIndex) (blind : List TypeName) (config : Config) (root : TypeName) (d : Int)
    (u : TypeName) : Prop :=
  ∃ n : Nat, (d = -1 ∨ (n : Int) ≤ d) ∧ (x.context blind config).refs.ReachesIn root n u

/-- A context over an index says what the provider fixes, whatever it has been asked before. -/
theorem answerAfter_context (hs : (x.context blind config).Reached s) (asked : List TypeName)
    (t : TypeName) :
    (x.context blind config).answerAfter s asked t =
      match (x.context blind config).refs t with
      | some rs => .ok rs
      | none => .error (.unresolved t) := by
  have hctx := lawful_context x blind config
  have hs' := (hs.coherent hctx).after hctx (asked.map Step.direct)
  unfold Context.answerAfter
  cases ht : (x.context blind config).refs t with
  | some rs => exact (Context.yields_directReferences ht _ hs').1
  | none => exact (Context.yields_directReferences_unresolved hctx ht _ hs').1

theorem leads_of_answerAfter (hs : (x.context blind config).Reached s) {asked : List TypeName}
    {u t : TypeName} {rs : NameSet}
    (hrs : (x.context blind config).answerAfter s asked u = .ok rs) (ht : t ∈ rs) :
    (x.context blind config).refs.Leads u t := by
  rw [answerAfter_context hs] at hrs
  cases hu : (x.context blind config).refs u with
  | none =>
    rw [hu] at hrs
    cases hrs
  | some rs' =>
    rw [hu] at hrs
    cases hrs
    exact ⟨rs, hu, ht⟩

/-- What a context over an index cannot describe it calls by its name. -/
theorem eq_of_answerAfter_eq_unresolved (hs : (x.context blind config).Reached s)
    {asked : List TypeName} {t n : TypeName}
    (hn : (x.context blind config).answerAfter s asked t = .error (.unresolved n)) : n = t := by
  rw [answerAfter_context hs] at hn
  cases ht : (x.context blind config).refs t with
  | none =>
    rw [ht] at hn
    cases hn
    rfl
  | some rs =>
    rw [ht] at hn
    cases hn

/-- The types near a root are those that short walks lead to. -/
theorem isNear_of_near (hs : (x.context blind config).Reached s) {u : TypeName}
    (h : (x.context blind config).Near s root d u) : x.IsNear blind config root d u := by
  obtain ⟨n, hn, hwithin⟩ := h
  refine ⟨n, hn, ?_⟩
  clear hn
  induction hwithin with
  | root => exact .refl
  | tail _ hrs ht ih => exact ih.tail (leads_of_answerAfter hs hrs ht)

/-- Contexts over two indexes say the same of the types near the root, if these have the same
    references in both. -/
theorem saysAlike_context (hs : (x.context blind config).Reached s)
    (hs' : (x'.context blind' config').Reached s')
    (hsame : ∀ u, x.IsNear blind config root d u →
      (x.context blind config).refs u = (x'.context blind' config').refs u) :
    (x.context blind config).SaysAlike (x'.context blind' config') s s' root d := by
  have hanswers : ∀ asked u, x.IsNear blind config root d u →
      (x.context blind config).answerAfter s asked u =
        (x'.context blind' config').answerAfter s' asked u := by
    intro asked u hu
    rw [answerAfter_context hs, answerAfter_context hs', hsame u hu]
  refine { alike := ?alike, room := ?room, room' := ?room' }
  case alike =>
    intro asked _ u hu
    rw [hanswers asked u (isNear_of_near hs hu)]
    exact .same _
  case room =>
    obtain ⟨names, hlength, hnames⟩ := (lawful_context x blind config).ample
    refine ⟨names, ?_, hlength⟩
    intro u _ asked rs hrs t ht
    exact hnames u t (leads_of_answerAfter hs hrs ht)
  case room' =>
    -- what the first index tells of near types, the second one tells as well
    obtain ⟨names, hlength, hnames⟩ := (lawful_context x' blind' config').ample
    refine ⟨names, ?_, hlength⟩
    intro u hu asked rs hrs t ht
    rw [hanswers asked u (isNear_of_near hs hu)] at hrs
    exact hnames u t (leads_of_answerAfter hs' hrs ht)

/-- Contexts over two indexes explore alike, if the types near the root have the same references in
    both. -/
theorem outcome_explore_eq (hs : (x.context blind config).Reached s)
    (hs' : (x'.context blind' config').Reached s')
    (hsame : ∀ u, x.IsNear blind config root d u →
      (x.context blind config).refs u = (x'.context blind' config').refs u) :
    (((x.context blind config).explore root d).run s).1 =
      (((x'.context blind' config').explore root d).run s').1 := by
  have hexplore := (saysAlike_context hs hs' hsame).explore
  generalize (((x.context blind config).explore root d).run s).1 = o at hexplore ⊢
  generalize (((x'.context blind' config').explore root d).run s').1 = o' at hexplore ⊢
  cases hexplore with
  | same => rfl
  | root hn hn' =>
    -- both call the root by its name
    rw [eq_of_answerAfter_eq_unresolved hs hn, eq_of_answerAfter_eq_unresolved hs' hn']

/-! ## §5 Editing a description -/

/-- The index with the description of one type edited. -/
def edit (x : TypeIndex) (v : TypeName) (f : TypeDecl → TypeDecl) : TypeIndex :=
  { x with types := x.types.map fun e => if e.name = v then f e else e }

variable {v u : TypeName} {f : TypeDecl → TypeDecl}

/-- Other types are found with the descriptions that they had. -/
theorem find?_edit (hname : ∀ e, (f e).name = e.name) (hu : u ≠ v) :
    (x.edit v f).find? u = x.find? u := by
  have hsame : ((fun e : TypeDecl => e.name == u) ∘ fun e => if e.name = v then f e else e) =
      fun e => e.name == u := by
    funext e
    by_cases he : e.name = v <;> simp [he, hname]
  unfold find? edit
  rw [List.find?_map, hsame]
  cases hfind : x.types.find? fun e => e.name == u with
  | none => rfl
  | some e =>
    have heu : e.name = u := by simpa using List.find?_some hfind
    have hev : e.name ≠ v := heu ▸ hu
    simp [hev]

/-- An edit that leaves the declaring type alone leaves alone what is nested in other types. -/
theorem mem_nestedIn_edit_iff (hname : ∀ e, (f e).name = e.name)
    (hdeclaring : ∀ e, (f e).declaring = e.declaring) (hu : u ≠ v) {n : TypeName} :
    n ∈ (x.edit v f).nestedIn u ↔ n ∈ x.nestedIn u := by
  have hnests : ∀ e : TypeDecl, Nests (if e.name = v then f e else e) u n ↔ Nests e u n := by
    intro e
    by_cases he : e.name = v
    · -- the edited type says something about `u` only by being a member of it
      have heu : e.name ≠ u := fun heq => hu (heq.symm.trans he)
      simp [Nests, he, hname, hdeclaring, he ▸ heu]
    · rw [if_neg he]
  rw [mem_nestedIn_iff, mem_nestedIn_iff]
  unfold edit
  simp only [List.mem_map, exists_exists_and_eq_and, hnests]

/-- An edit that leaves the declaring type alone leaves alone the references of other types. -/
theorem refs_edit (hname : ∀ e, (f e).name = e.name)
    (hdeclaring : ∀ e, (f e).declaring = e.declaring) (hu : u ≠ v) :
    ((x.edit v f).context blind config).refs u = (x.context blind config).refs u := by
  have hfind := find?_edit (x := x) hname hu
  by_cases hdescribes : x.Describes blind u
  · obtain ⟨hblind, e, he⟩ := describes_iff_exists_find?.1 hdescribes
    rw [refs_context he hblind, refs_context (hfind.trans he) hblind]
    congr 1
    apply OrdSet.ext
    intro n
    obtain ⟨-, rfl⟩ := mem_types_of_find? he
    rw [Context.mem_keepReferences_iff, Context.mem_keepReferences_iff, mem_mentionedBy_iff,
      mem_mentionedBy_iff, mem_nestedIn_edit_iff hname hdeclaring hu]
    exact Iff.rfl
  · have hnot : ¬ (x.edit v f).Describes blind u := by
      unfold Describes contains at hdescribes ⊢
      rw [hfind]
      exact hdescribes
    rw [refs_context_eq_none_iff.2 hdescribes, refs_context_eq_none_iff.2 hnot]

/-- **Locality.** An exploration to a depth depends only on the direct references of the types
    within that depth. Whatever two contexts are, if they say the same of these types, then their
    explorations have the same outcome, except that each names a root that it cannot describe in its
    own way. Over indexes nothing is excepted. In particular an edit to the description of a type
    beyond the depth changes nothing, if it leaves alone the references of the types within it; and
    it does so if it leaves the declaring type alone. -/
theorem exploration_is_local :
    (∀ {σ σ' : Type} (ctx : Context σ) (ctx' : Context σ') (s : Session σ) (s' : Session σ')
      (root : TypeName) (d : Int), ctx.SaysAlike ctx' s s' root d →
        ctx.SameFrom ctx' s s' root ((ctx.explore root d).run s).1
          ((ctx'.explore root d).run s').1 ∧
        (ctx.answerAfter s [] root = ctx'.answerAfter s' [] root →
          ((ctx.explore root d).run s).1 = ((ctx'.explore root d).run s').1)) ∧
    (∀ (x x' : TypeIndex) (blind blind' : List TypeName) (config config' : Config)
      (s s' : Session Unit), (x.context blind config).Reached s →
      (x'.context blind' config').Reached s' → ∀ (root : TypeName) (d : Int),
        (∀ u, x.IsNear blind config root d u →
          (x.context blind config).refs u = (x'.context blind' config').refs u) →
        (((x.context blind config).explore root d).run s).1 =
          (((x'.context blind' config').explore root d).run s').1) ∧
    ∀ (x : TypeIndex) (blind : List TypeName) (config : Config) (v : TypeName)
      (f : TypeDecl → TypeDecl), (∀ e, (f e).name = e.name) →
      ∀ (s s' : Session Unit), (x.context blind config).Reached s →
      ((x.edit v f).context blind config).Reached s' → ∀ (root : TypeName) (d : Int),
        ¬ x.IsNear blind config root d v →
        ((∀ e, (f e).declaring = e.declaring) ∨ ∀ u, x.IsNear blind config root d u →
          (x.context blind config).refs u = ((x.edit v f).context blind config).refs u) →
        (((x.context blind config).explore root d).run s).1 =
          ((((x.edit v f).context blind config).explore root d).run s').1 := by
  refine ⟨?_, ?_, ?_⟩
  · intro σ σ' ctx ctx' s s' root d h
    refine ⟨h.explore, ?_⟩
    intro hroot
    have hexplore := h.explore
    generalize ((ctx.explore root d).run s).1 = o at hexplore ⊢
    generalize ((ctx'.explore root d).run s').1 = o' at hexplore ⊢
    cases hexplore with
    | same => rfl
    | root hn hn' => cases hn.symm.trans (hroot.trans hn'); rfl
  · exact fun x x' blind blind' config config' s s' hs hs' root d hsame =>
      outcome_explore_eq hs hs' hsame
  · intro x blind config v f hname s s' hs hs' root d hfar hleaves
    apply outcome_explore_eq hs hs'
    rcases hleaves with hdeclaring | hsame
    · -- a type near the root is not the edited one
      intro u hu
      have hne : u ≠ v := fun heq => hfar (heq ▸ hu)
      exact (refs_edit hname hdeclaring hne).symm
    · exact hsame

/-- A description with other interfaces. -/
def reimplement (e : TypeDecl) : TypeDecl := { e with implements := ["A", "D"] }

/-- Exploring from `A` to depth one, which expands `A` and `B`: it makes no difference whether `C`
    can be described, nor what its description says. -/
theorem exploration_is_local_ring :
    (ring.context [] {}).SameFrom (ring.context ["C"] {}) Session.fresh Session.fresh "A"
        (((ring.context [] {}).explore "A" 1).run Session.fresh).1
        (((ring.context ["C"] {}).explore "A" 1).run Session.fresh).1 ∧
      (((ring.context [] {}).explore "A" 1).run Session.fresh).1 =
        (((ring.context ["C"] {}).explore "A" 1).run Session.fresh).1 ∧
      (((ring.context [] {}).explore "A" 1).run Session.fresh).1 =
        ((((ring.edit "C" reimplement).context [] {}).explore "A" 1).run Session.fresh).1 := by
  have hnear : ∀ u, ring.IsNear [] {} "A" 1 u → u = "A" ∨ u = "B" := by
    intro u hu
    obtain ⟨n, hn, hreach⟩ := hu
    rcases n with _ | _ | n
    · cases hreach
      exact .inl rfl
    · -- over one reference of `A`
      obtain ⟨v, hv, rs, hrs, hmem⟩ := hreach.exists_last
      cases hv
      have hA : (ring.context [] {}).refs "A" = some (OrdSet.ofList ["B"]) := rfl
      have hrefs : rs = OrdSet.ofList ["B"] := Option.some.inj (hrs.symm.trans hA)
      rw [hrefs, OrdSet.mem_ofList] at hmem
      exact .inr (List.mem_singleton.1 hmem)
    · omega
  have hsame : ∀ u, ring.IsNear [] {} "A" 1 u →
      (ring.context [] {}).refs u = (ring.context ["C"] {}).refs u := by
    intro u hu
    rcases hnear u hu with rfl | rfl
    · rfl
    · rfl
  have hfar : ¬ ring.IsNear [] {} "A" 1 "C" := fun hC => absurd (hnear "C" hC) (by decide)
  obtain ⟨hcontexts, hindexes, hedits⟩ := exploration_is_local
  refine ⟨?_, ?_, ?_⟩
  · exact (hcontexts _ _ _ _ "A" 1 (saysAlike_context ⟨[], rfl⟩ ⟨[], rfl⟩ hsame)).1
  · exact hindexes ring ring [] ["C"] {} {} _ _ ⟨[], rfl⟩ ⟨[], rfl⟩ "A" 1 hsame
  · exact hedits ring [] {} "C" reimplement (fun _ => rfl) Session.fresh Session.fresh ⟨[], rfl⟩
      ⟨[], rfl⟩ "A" 1 hfar (.inl fun _ => rfl)

end TypeIndex

end TypeAtlas
