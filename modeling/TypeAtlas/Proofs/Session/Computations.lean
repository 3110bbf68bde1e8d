import TypeAtlas.Proofs.Session.Index
import TypeAtlas.Proofs.Session.OnRecord

/-!
# Computations

Each computation of direct references is noted in the log before it begins, so the log tells how
often a type has been computed. In a session over an index that is once for the types on record, and
never for the other types that can be described. A type that cannot be described is never on record;
it is computed in vain whenever it is asked about, but by one exploration no more than once.

Main statements: `Context.after_of_direct`, `Context.log_explore` and `TypeIndex.computes_once`.
-/

namespace TypeAtlas

/-! ## §1 Computations in a log -/

/-- How often the lines of a log say that the direct references of a type are being computed. -/
def computations (log : List Notice) (t : TypeName) : Nat :=
  (logLines true log).count ("DEBUG: Computing direct references of " ++ t)

theorem Notice.line_computing (t : TypeName) :
    (Notice.computing t).line = "DEBUG: Computing direct references of " ++ t := by
  show "DEBUG: " ++ ("Computing direct references of " ++ t) = _
  rw [← String.append_assoc]
  rfl

theorem Notice.line_eq_iff {n : Notice} {t : TypeName} :
    n.line = (Notice.computing t).line ↔ n = .computing t := by
  have hwarning : ∀ a b : String, "WARNING: " ++ a ≠ "DEBUG: " ++ b := by
    intro a b h
    rw [← String.toList_inj, String.toList_append, String.toList_append] at h
    cases h
  apply Iff.intro
  · intro h
    cases n with
    | computing u =>
      have htext : "Computing direct references of " ++ u =
          "Computing direct references of " ++ t :=
        (String.append_right_inj "DEBUG: ").1 h
      rw [(String.append_right_inj _).1 htext]
    | skippingNeighbour u referrer =>
      -- another word begins the text
      have htext : (Notice.skippingNeighbour u referrer).text = (Notice.computing t).text :=
        (String.append_right_inj "DEBUG: ").1 h
      unfold text at htext
      simp only [← String.toList_inj, String.toList_append] at htext
      cases htext
    | skippingUnresolvedRoot m => exact absurd h (hwarning _ _)
    | skippingBlindRoot u => exact absurd h (hwarning _ _)
  · intro h
    rw [h]

theorem computations_eq_count (log : List Notice) (t : TypeName) :
    computations log t = log.count (.computing t) := by
  have hall : log.filter (fun n => true || n.level == .warning) = log :=
    List.filter_eq_self.2 fun _ _ => rfl
  unfold computations logLines List.count
  rw [hall, List.countP_map, ← Notice.line_computing]
  apply List.countP_congr
  intro n _
  rw [Function.comp_apply, beq_iff_eq, beq_iff_eq, Notice.line_eq_iff]

theorem computations_append (log new : List Notice) (t : TypeName) :
    computations (log ++ new) t = computations log t + computations new t := by
  simp only [computations_eq_count, List.count_append]

theorem computations_singleton (t u : TypeName) :
    computations [.computing t] u = if u = t then 1 else 0 := by
  rw [computations_eq_count, List.count_singleton]
  by_cases hu : u = t
  · simp [hu]
  · simp [hu, Ne.symm hu]

/-! ## §2 Computations of one walk -/

namespace Walk

/-- What looking at the next type of the queue may make of a walk. -/
inductive Moves (w : Walk) (t : TypeName) (depth : Nat) : Walk → Prop where
  | expand (rs : NameSet) : Moves w t depth (w.expand t depth rs)
  | giveUp : Moves w t depth (w.giveUp t)
  | pass : Moves w t depth w.pass

/-- What has been noted accounts for a walk: each type is found once, and computed once at most,
    which is not before it leaves the queue. -/
structure Accounts (noted : List Notice) (w : Walk) : Prop where
  distinct : (w.depths.map Prod.fst).Nodup
  tally : ∀ t, computations noted t + (w.queue.map Prod.fst).count t ≤
    (w.depths.map Prod.fst).count t

namespace Accounts

variable {noted more : List Notice} {w w' : Walk}

theorem start (root : TypeName) : Accounts [] (.start root) where
  distinct := List.nodup_singleton root
  tally t := by
    show 0 + _ ≤ _
    rw [Nat.zero_add]
    exact Nat.le_refl _

theorem computations_le_one (h : w.Accounts noted) (t : TypeName) : computations noted t ≤ 1 := by
  have hfound := List.nodup_iff_count_le_one.1 h.distinct t
  have htally := h.tally t
  omega

/-- Looking at a type may compute that type. -/
theorem move (h : w.Accounts noted) {t : TypeName} {depth : Nat} {rest : List (TypeName × Nat)}
    (hqueue : w.queue = (t, depth) :: rest) (hmove : w.Moves t depth w')
    (hmore : ∀ u, computations more u ≤ if u = t then 1 else 0) :
    w'.Accounts (noted ++ more) := by
  -- the type leaves the queue, which makes room for its computation
  have hpass : ∀ u, computations (noted ++ more) u + (rest.map Prod.fst).count u ≤
      (w.depths.map Prod.fst).count u := by
    intro u
    have htally := h.tally u
    have hu := hmore u
    rw [hqueue, List.map_cons, List.count_cons] at htally
    rw [computations_append]
    by_cases heq : u = t
    · simp only [heq, beq_self_eq_true, if_true] at htally hu ⊢
      omega
    · simp only [heq, Ne.symm heq, beq_iff_eq, if_false] at htally hu
      omega
  have htail : w.queue.tail = rest := by rw [hqueue, List.tail_cons]
  cases hmove with
  | expand rs =>
    refine ⟨nodup_expand h.distinct t depth rs, ?_⟩
    intro u
    have hu := hpass u
    rw [expand_eq, htail]
    simp only [List.map_append, List.count_append]
    omega
  | giveUp => exact ⟨h.distinct, fun u => by rw [← htail] at hpass; exact hpass u⟩
  | pass => exact ⟨h.distinct, fun u => by rw [← htail] at hpass; exact hpass u⟩

end Accounts

end Walk

namespace Context

variable {ctx : Context Unit}

/-- Asking for direct references changes nothing if they are on record, and else notes their
    computation and puts them on record, if there are any. -/
theorem run_directReferences_cases (ctx : Context Unit) (t : TypeName) (s : Session Unit) :
    (∃ rs, s.descriptors.get? t = some rs) ∧ ((ctx.directReferences t).run s).2 = s ∨
      s.descriptors.get? t = none ∧
        ((ctx.directReferences t).run s).2.log = s.log ++ [.computing t] ∧
        ∀ u, ((ctx.directReferences t).run s).2.descriptors.get? u =
          if u = t then ctx.refs t else s.descriptors.get? u := by
  cases hcached : s.descriptors.get? t with
  | some rs =>
    rw [run_directReferences_of_get? hcached]
    exact .inl ⟨⟨rs, rfl⟩, rfl⟩
  | none =>
    rw [run_directReferences_of_none hcached, refs_eq]
    cases ((ctx.mentioned t).run ()).1 with
    | ok ns => exact .inr ⟨rfl, rfl, fun u => OrdMap.get?_insert⟩
    | error f =>
      -- nothing is put on record, and nothing was there
      refine .inr ⟨rfl, rfl, ?_⟩
      intro u
      by_cases hu : u = t
      · rw [if_pos hu, hu]
        exact hcached
      · rw [if_neg hu]

theorem log_directReferences (ctx : Context Unit) (t : TypeName) (s : Session Unit) :
    ∃ new, ((ctx.directReferences t).run s).2.log = s.log ++ new ∧
      ∀ u, computations new u ≤ if u = t then 1 else 0 := by
  rcases ctx.run_directReferences_cases t s with ⟨-, hsame⟩ | ⟨-, hlog, -⟩
  · rw [hsame]
    exact ⟨[], (List.append_nil _).symm, fun u => Nat.zero_le _⟩
  · exact ⟨_, hlog, fun u => Nat.le_of_eq (computations_singleton t u)⟩

/-- One step of a walk looks at the next type of the queue. -/
theorem log_walkStep (ctx : Context Unit) (root : TypeName) (bound : Bound) (w : Walk)
    (t : TypeName) (k : Nat) (s : Session Unit) :
    ∃ new, ((ctx.walkStep root bound w t k).run s).2.log = s.log ++ new ∧
      (∀ u, computations new u ≤ if u = t then 1 else 0) ∧
      ∀ w', ((ctx.walkStep root bound w t k).run s).1 = .ok w' → w.Moves t k w' := by
  by_cases hk : bound.admits k = true
  · rw [run_walkStep_of_admits hk]
    obtain ⟨new, hlog, hnew⟩ := ctx.log_directReferences t s
    rcases hr : (ctx.directReferences t).run s with ⟨(_ | n | _) | rs, s'⟩ <;> rw [hr] at hlog
    case error.unresolved =>
      by_cases hroot : t = root
      · simp only [if_pos hroot]
        exact ⟨new, hlog, hnew, nofun⟩
      · simp only [if_neg hroot]
        refine ⟨new ++ [.skippingNeighbour t (w.parent? t)], ?_, ?_, ?_⟩
        · show s'.log ++ _ = _
          rw [hlog, List.append_assoc]
        · intro u
          rw [computations_append, computations_eq_count [_]]
          exact hnew u
        · intro w' hw'
          cases hw'
          exact .giveUp
    case ok =>
      refine ⟨new, hlog, hnew, ?_⟩
      intro w' hw'
      cases hw'
      exact .expand rs
    all_goals exact ⟨new, hlog, hnew, nofun⟩
  · -- beyond the bound nothing is asked
    unfold walkStep
    rw [if_neg hk]
    refine ⟨[], (List.append_nil _).symm, fun u => Nat.zero_le _, ?_⟩
    intro w' hw'
    cases hw'
    exact .pass

theorem log_walk (ctx : Context Unit) (root : TypeName) (bound : Bound) (fuel : Nat)
    {noted : List Notice} {w : Walk} (hw : w.Accounts noted) (s : Session Unit) :
    ∃ new, ((ctx.walk root bound fuel w).run s).2.log = s.log ++ new ∧
      ∀ t, computations (noted ++ new) t ≤ 1 := by
  induction fuel generalizing w noted s with
  | zero =>
    refine ⟨[], (List.append_nil _).symm, ?_⟩
    rw [List.append_nil]
    exact hw.computations_le_one
  | succ fuel ih =>
    unfold walk
    split
    case h_1 =>
      refine ⟨[], (List.append_nil _).symm, ?_⟩
      rw [List.append_nil]
      exact hw.computations_le_one
    case h_2 t k rest hqueue =>
      obtain ⟨new, hlog, hnew, hmoves⟩ := ctx.log_walkStep root bound w t k s
      rcases hr : (ctx.walkStep root bound w t k).run s with ⟨f | w', s'⟩ <;> rw [hr] at hlog hmoves
      · -- what a failing step has noted would account for passing over its type
        rw [Asking.run_bind_of_error hr]
        exact ⟨new, hlog, (hw.move hqueue .pass hnew).computations_le_one⟩
      · rw [Asking.run_bind_of_ok hr]
        obtain ⟨later, hlater, hle⟩ := ih (hw.move hqueue (hmoves w' rfl) hnew) s'
        refine ⟨new ++ later, ?_, ?_⟩
        · rw [hlater, hlog, List.append_assoc]
        · rw [← List.append_assoc]
          exact hle

/-- One exploration computes no type twice. -/
theorem log_explore (ctx : Context Unit) (root : TypeName) (depth : Int) (s : Session Unit) :
    ∃ new, ((ctx.explore root depth).run s).2.log = s.log ++ new ∧
      ∀ t, computations new t ≤ 1 := by
  unfold explore
  cases Bound.ofInt? depth with
  | none => exact ⟨[], (List.append_nil _).symm, fun t => Nat.zero_le _⟩
  | some bound =>
    show ∃ new, ((ctx.exploreWithin root bound).run s).2.log = _ ∧ _
    unfold exploreWithin
    rw [Asking.run_bind_of_ok (Run.run_get s)]
    obtain ⟨new, hlog, hnew⟩ := ctx.log_walk root bound
      (ctx.provider.capacity s.memory + 2) (.start root) s
    rw [List.nil_append] at hnew
    refine ⟨new, ?_, hnew⟩
    rcases hr : (ctx.walk root bound (ctx.provider.capacity s.memory + 2) (.start root)).run s with
      ⟨f | w, s'⟩
    · rw [hr] at hlog
      rw [Asking.run_bind_of_error hr]
      exact hlog
    · -- drawing what was reached notes nothing
      rw [hr] at hlog
      rw [Asking.run_bind_of_ok hr]
      cases ctx.config.transitiveEdges with
      | true => exact hlog
      | false => exact hlog

/-! ## §3 Computations of a session -/

/-- A property of the cache and of the computations noted is kept by every step, if asking for
    direct references keeps it. -/
theorem after_of_direct {σ : Type} {ctx : Context σ} {P : Session σ → Prop}
    (haside : ∀ s s' : Session σ, s'.descriptors = s.descriptors →
      (∀ t, computations s'.log t = computations s.log t) → P s → P s')
    (hdirect : ∀ t s, P s → P ((ctx.directReferences t).run s).2) {s : Session σ} (hs : P s)
    (steps : List Step) : P (ctx.after s steps) := by
  -- the session runs in lockstep with itself
  have hlock : ctx.Lockstep ctx fun s s' => s' = s ∧ P s := by
    refine ⟨ctx.provider.matches_refl, rfl, ?_, ?_, ?_, ?_, ?_, ?_, ?_⟩
    · exact fun s s' h => congrArg Session.memory h.1
    · exact fun s s' h => congrArg Session.descriptors h.1
    · rintro _ s ⟨rfl, hs⟩ memory
      exact ⟨rfl, haside s _ rfl (fun _ => rfl) hs⟩
    · rintro _ s ⟨rfl, hs⟩ n hn
      refine ⟨rfl, haside s _ rfl ?_ hs⟩
      -- the notice is not one of a computation
      intro t
      rw [computations_append, computations_eq_count [n], List.count_singleton]
      simp [hn t]
    · rintro t _ s ⟨rfl, hs⟩
      exact ⟨agree_eq_iff.2 rfl, rfl, hdirect t s hs⟩
    · rintro _ s ⟨rfl, hs⟩ reached
      exact ⟨rfl, haside s _ rfl (fun _ => rfl) hs⟩
    · rintro _ s ⟨rfl, hs⟩ step
      exact ⟨rfl, haside s _ rfl (fun _ => rfl) hs⟩
  exact (hlock.after ⟨rfl, hs⟩ steps).2

/-- The cache holds the references that the provider fixes, and of the types that it can describe
    those on record have been computed once and the others never. -/
structure ComputesOnce (ctx : Context Unit) (s : Session Unit) : Prop where
  known : ∀ t rs, s.descriptors.get? t = some rs → ctx.refs t = some rs
  once : ∀ t, (∃ rs, ctx.refs t = some rs) →
    computations s.log t = if s.descriptors.contains t then 1 else 0

theorem computesOnce_fresh (ctx : Context Unit) : ctx.ComputesOnce Session.fresh where
  known _ _ h := nomatch h
  once _ _ := rfl

theorem ComputesOnce.directReferences {s : Session Unit} (h : ctx.ComputesOnce s) (t : TypeName) :
    ctx.ComputesOnce ((ctx.directReferences t).run s).2 := by
  rcases ctx.run_directReferences_cases t s with ⟨-, hsame⟩ | ⟨hnone, hlog, hget⟩
  · rw [hsame]
    exact h
  · refine ⟨?_, ?_⟩
    · intro u rs hu
      rw [hget] at hu
      by_cases heq : u = t
      · rw [if_pos heq] at hu
        rw [heq]
        exact hu
      · rw [if_neg heq] at hu
        exact h.known u rs hu
    · intro u hu
      have hbefore := h.once u hu
      unfold OrdMap.contains at hbefore ⊢
      rw [hlog, computations_append, computations_singleton, hbefore, hget]
      by_cases heq : u = t
      · -- computed for the first time, and on record from now on
        obtain ⟨rs, hrs⟩ := hu
        subst heq
        simp [hnone, hrs]
      · simp [heq]

theorem ComputesOnce.after {s : Session Unit} (h : ctx.ComputesOnce s) (steps : List Step) :
    ctx.ComputesOnce (ctx.after s steps) := by
  apply after_of_direct ?_ (fun t s hs => hs.directReferences t) h
  intro s s' hdescriptors hlog hs
  refine ⟨?_, ?_⟩
  · rw [hdescriptors]
    exact hs.known
  · intro t ht
    rw [hlog, hdescriptors]
    exact hs.once t ht

/-- What is on record stays so. -/
theorem get?_after {σ : Type} {ctx : Context σ} {s : Session σ} {t : TypeName} {rs : NameSet}
    (ht : s.descriptors.get? t = some rs) (steps : List Step) :
    (ctx.after s steps).descriptors.get? t = some rs := by
  refine after_of_direct (P := fun s => s.descriptors.get? t = some rs) ?_ ?_ ht steps
  · intro s s' hdescriptors _ hs
    rw [hdescriptors]
    exact hs
  · exact fun u s hs => (ctx.tells_directReferences u s).addsOnly.1.keeps hs

end Context

/-! ## §4 Sessions over an index -/

namespace TypeIndex

/-- In every session over an index that steps lead to, a type that can be described has been
    computed once if it is on record and never if it is not, and what is on record stays there with
    the same references. A type that cannot be described is never on record, and asking about it
    computes it again. No exploration computes a type twice, whether it can be described or not. -/
theorem computes_once (x : TypeIndex) (blind : List TypeName) (config : Config) {s : Session Unit}
    (hs : (x.context blind config).Reached s) :
    (∀ t, x.Describes blind t →
      computations s.log t = if s.descriptors.contains t then 1 else 0) ∧
    (∀ t rs, s.descriptors.get? t = some rs → ∀ steps,
      ((x.context blind config).after s steps).descriptors.get? t = some rs) ∧
    (∀ t, ¬ x.Describes blind t → s.descriptors.get? t = none ∧
      ((x.context blind config).step s (.direct t)).2.log = s.log ++ [.computing t]) ∧
    ∀ root depth, ∃ new,
      (((x.context blind config).explore root depth).run s).2.log = s.log ++ new ∧
        ∀ t, computations new t ≤ 1 := by
  have honce : (x.context blind config).ComputesOnce s := by
    obtain ⟨steps, rfl⟩ := hs
    exact (Context.computesOnce_fresh _).after steps
  refine ⟨?_, ?_, ?_, ?_⟩
  · exact fun t ht => honce.once t (exists_refs_context_iff.2 ht)
  · exact fun t rs ht steps => Context.get?_after ht steps
  · intro t ht
    have hnone : s.descriptors.get? t = none := by
      apply Option.eq_none_iff_forall_ne_some.2
      intro rs hrs
      exact ht (exists_refs_context_iff.1 ⟨rs, honce.known t rs hrs⟩)
    refine ⟨hnone, ?_⟩
    have hstep : ((x.context blind config).step s (.direct t)).2 =
        (((x.context blind config).directReferences t).run s).2 :=
      congrArg Prod.snd (Asking.run_map _ Answer.typeSet s)
    rw [hstep]
    rcases Context.run_directReferences_cases _ t s with ⟨⟨rs, hrs⟩, -⟩ | ⟨-, hlog, -⟩
    · cases hnone.symm.trans hrs
    · exact hlog
  · exact fun root depth => Context.log_explore _ root depth s

/-- Steps that ask about `A` along three routes, and in between about `C`. -/
def roundabout : List Step :=
  [.explore "A" none, .direct "C", .metrics "A" none, .analyze ["A"] none]

/-- `A` is computed once, and a blind `C` once more whenever it is asked about. -/
theorem computes_once_ring :
    computations ((ring.context ["C"] {}).after Session.fresh roundabout).log "A" = 1 ∧
      computations ((ring.context ["C"] {}).after Session.fresh (roundabout ++ [.direct "C"])).log
          "C" =
        computations ((ring.context ["C"] {}).after Session.fresh roundabout).log "C" + 1 := by
  obtain ⟨honce, -, hblind, -⟩ := computes_once ring ["C"] {} ⟨roundabout, rfl⟩
  have hdescribed : ring.Describes ["C"] "A" := ⟨by decide, by decide⟩
  have hnot : ¬ ring.Describes ["C"] "C" := fun h => h.2 (by decide)
  apply And.intro
  · rw [honce "A" hdescribed]
    decide +kernel
  · have hafter : (ring.context ["C"] {}).after Session.fresh (roundabout ++ [.direct "C"]) =
        ((ring.context ["C"] {}).step ((ring.context ["C"] {}).after Session.fresh roundabout)
          (.direct "C")).2 := by
      unfold Context.after
      rw [List.foldl_append, List.foldl_cons, List.foldl_nil]
    rw [hafter, (hblind "C" hnot).2, computations_append, computations_singleton, if_pos rfl]

end TypeIndex

end TypeAtlas
