import TypeAtlas.Proofs.Closure.Reachability
import TypeAtlas.Proofs.Closure.Record
import TypeAtlas.Proofs.Session.Computations

/-!
# The transitive merge

With transitive edges an exploration records, for every type that it expanded, what that type
reaches over the record. The record is cut off at a distance from the root, so this is neither the
closure of the type to the depth that is left there nor its whole closure. It lies between the two.

Main statement: `TypeIndex.merge_between_closures`.
-/

namespace TypeAtlas

/-- The types that an exploration records as referenced by a type that it expanded. -/
def Exploration.merged (e : Exploration) (u : TypeName) : NameSet :=
  if u = e.root then e.types else reachable e.adjacency u

/-! ## §1 Two walks -/

namespace Walk

theorem merged_exploration (w : Walk) (root : TypeName) (bound : Bound) (u : TypeName) :
    (w.exploration root bound).merged u = reachable w.adjacency u := by
  unfold Exploration.merged
  split
  case isTrue hu => rw [hu]; rfl
  case isFalse => rfl

namespace Orderly

variable {refs refs' : Refs} {root u : TypeName} {bound bound' : Bound} {w w' : Walk}

/-- What a type reaches over the record of a walk is in its closure, if the references on record are
    known to the walk from it. -/
theorem mem_closure_of_mem_reachable (h : Finished refs root bound w)
    (h' : Finished refs' u .unbounded w') (hknown : ∀ t rs, refs t = some rs → refs' t = some rs)
    {t : TypeName} (ht : t ∈ reachable w.adjacency u) : t ∈ reachable w'.adjacency u := by
  obtain ⟨hne, n, hwalk⟩ := mem_reachable_iff.1 ht
  refine h'.mem_reachable_root_iff.2 ⟨hne, n, rfl, hwalk.mono ?_⟩
  intro v rs hrs
  obtain ⟨-, -, -, hrefs⟩ := h.refs_adjacency_iff.1 hrs
  exact hknown v rs hrefs

/-- With more references known, a walk from the same root to the same bound reaches as much. -/
theorem mem_reachable_root_of_known (h : Finished refs root bound w)
    (h' : Finished refs' root bound w') (hknown : ∀ t rs, refs t = some rs → refs' t = some rs)
    {t : TypeName} (ht : t ∈ reachable w.adjacency root) : t ∈ reachable w'.adjacency root := by
  obtain ⟨hne, n, hn, hwalk⟩ := h.mem_reachable_root_iff.1 ht
  exact h'.mem_reachable_root_iff.2 ⟨hne, n, hn, hwalk.mono hknown⟩

/-- A walk that goes on from a type found stays on record as long as it is within the bound. -/
theorem reachesIn_adjacency_of_mem_depths (h : Finished refs root bound w) {k : Nat}
    (hu : (u, k) ∈ w.depths)
    (hfound : ∀ v j rs, (v, j) ∈ w.depths → bound.admits j = true → refs' v = some rs →
      refs v = some rs)
    {t : TypeName} {n : Nat} (hwalk : refs'.ReachesIn u n t)
    (hbound : ∀ m < n, bound.admits (k + m) = true) :
    w.adjacency.refs.ReachesIn u n t ∧ ∃ j ≤ k + n, (t, j) ∈ w.depths := by
  induction hwalk with
  | refl => exact ⟨.refl, k, Nat.le_refl k, hu⟩
  | @tail n v t _ hlead ih =>
    obtain ⟨hreach, j, hj, hv⟩ := ih fun m hm => hbound m (Nat.lt_succ_of_lt hm)
    -- `v` is no further away than the walk goes, so it is expanded, and `t` found with it
    obtain ⟨rs, hrs, ht⟩ := hlead
    have hadmits : bound.admits j = true := Bound.admits_of_le (hbound n (Nat.lt_succ_self n)) hj
    have hrefs : refs v = some rs := hfound v j rs hv hadmits hrs
    obtain ⟨i, hi, hij⟩ := h.near v j rs hv hadmits hrefs t ht
    have hrecord : w.adjacency.refs v = some rs := h.refs_adjacency_iff.2 ⟨j, hv, hadmits, hrefs⟩
    exact ⟨hreach.tail ⟨rs, hrecord, ht⟩, i, by omega, hi⟩

/-- A closure of a type found is reached over the record, if the walk ends within the bound. -/
theorem mem_reachable_of_mem_closure (h : Finished refs root bound w)
    (h' : Finished refs' u bound' w') {k : Nat} (hu : (u, k) ∈ w.depths)
    (hfound : ∀ v j rs, (v, j) ∈ w.depths → bound.admits j = true → refs' v = some rs →
      refs v = some rs)
    (hdeep : ∀ m, bound'.admits m = true → bound.admits (k + m) = true) {t : TypeName}
    (ht : t ∈ reachable w'.adjacency u) : t ∈ reachable w.adjacency u := by
  obtain ⟨hne, n, hn, hwalk⟩ := h'.mem_reachable_root_iff.1 ht
  have hbound : ∀ m < n + 1, bound.admits (k + m) = true := fun m hm =>
    hdeep m (Bound.admits_of_le hn (Nat.le_of_lt_succ hm))
  obtain ⟨hreach, -⟩ := h.reachesIn_adjacency_of_mem_depths hu hfound hwalk hbound
  exact mem_reachable_iff.2 ⟨hne, n, hreach⟩

/-- The types given up are those that are found within the bound and have no references known, so
    that the others are expanded. -/
theorem refs_eq_of_known (h : Finished refs root bound w)
    (hknown : ∀ t rs, refs t = some rs → refs' t = some rs)
    (hunresolved : ∀ t ∈ w.unresolved, refs' t = none) {v : TypeName} {j : Nat} {rs : NameSet}
    (hv : (v, j) ∈ w.depths) (hj : bound.admits j = true) (hrs : refs' v = some rs) :
    refs v = some rs := by
  cases hrefs : refs v with
  | none =>
    have hgiven : v ∈ w.unresolved := (h.given_up v).2 ⟨j, hv, hj, hrefs⟩
    cases (hunresolved v hgiven).symm.trans hrs
  | some rs' => exact (hknown v rs' hrefs).symm.trans hrs

end Orderly

end Walk

/-! ## §2 Between two closures -/

/-- The edges in the second session and not in the first are those of the merge. -/
def Exploration.Merges {σ : Type} (e : Exploration) (s s' : Session σ) : Prop :=
  ∀ a, a ∈ s'.graph.edges ↔ a ∈ s.graph.edges ∨
    (e.adjacency.expands a.source = true ∧ a.target ∈ e.merged a.source)

/-- What the merge of an exploration to the depth `d` records for a type lies between two of its
    closures. For the root it is the closure to that depth. -/
structure Exploration.Between (e : Exploration) (d : Int)
    (Closure : TypeName → Int → NameSet → Prop) : Prop where
  root : ∀ c, Closure e.root d c → e.merged e.root = c
  lower : 0 ≤ d → ∀ u k, e.adjacency.expands u = true → (u, k) ∈ e.depths →
    ∀ c, Closure u (d - k) c → ∀ t ∈ c, t ∈ e.merged u
  upper : ∀ u, e.adjacency.expands u = true → ∀ c, Closure u (-1) c → ∀ t ∈ e.merged u, t ∈ c
  unbounded : d = -1 → ∀ u, e.adjacency.expands u = true → ∀ c, Closure u (-1) c → e.merged u = c

/-- The merge of a finished walk lies between closures that are found by finished walks, if these
    know the references on record and no others of the types found. -/
theorem Walk.Orderly.between {refs : Refs} {root : TypeName} {bound : Bound} {w : Walk}
    (h : Finished refs root bound w) {d : Int} (hb : Bound.ofInt? d = some bound)
    {Closure : TypeName → Int → NameSet → Prop}
    (hclosure : ∀ u b c, Closure u b c → ∃ refs' bound' w', Bound.ofInt? b = some bound' ∧
      Finished refs' u bound' w' ∧ c = reachable w'.adjacency u ∧
      (∀ t rs, refs t = some rs → refs' t = some rs) ∧ ∀ t ∈ w.unresolved, refs' t = none) :
    (w.exploration root bound).Between d Closure := by
  have hmerged := w.merged_exploration root bound
  -- a closure within what is left of the bound
  have within : ∀ u k b c, (u, k) ∈ w.depths → Closure u b c →
      (∀ b', Bound.ofInt? b = some b' → ∀ m, b'.admits m = true → bound.admits (k + m) = true) →
      ∀ t ∈ c, t ∈ reachable w.adjacency u := by
    intro u k b c hu hc hdeep t ht
    obtain ⟨refs', bound', w', hb', h', rfl, hknown, hunresolved⟩ := hclosure u b c hc
    refine h.mem_reachable_of_mem_closure h' hu ?_ (hdeep bound' hb') ht
    exact fun v j rs hv hj hrs => h.refs_eq_of_known hknown hunresolved hv hj hrs
  -- the whole closure
  have whole : ∀ u c, Closure u (-1) c → ∀ t ∈ reachable w.adjacency u, t ∈ c := by
    intro u c hc t ht
    obtain ⟨refs', bound', w', hb', h', rfl, hknown, -⟩ := hclosure u (-1) c hc
    cases hb'
    exact h.mem_closure_of_mem_reachable h' hknown ht
  refine { root := ?root, lower := ?lower, upper := ?upper, unbounded := ?unbounded }
  case root =>
    intro c hc
    rw [hmerged]
    apply OrdSet.ext
    intro t
    apply Iff.intro
    · intro ht
      obtain ⟨refs', bound', w', hb', h', rfl, hknown, -⟩ := hclosure root d c hc
      cases hb.symm.trans hb'
      exact h.mem_reachable_root_of_known h' hknown ht
    · refine within root 0 d c h.root_mem_depths hc ?_ t
      intro b' hb' m hm
      cases hb.symm.trans hb'
      rwa [Nat.zero_add]
  case lower =>
    intro hd u k hexpands hu c hc t ht
    rw [hmerged]
    refine within u k (d - k) c hu hc ?_ t ht
    intro b' hb' m hm
    -- `u` is within the bound, and what is left of it is admitted from there
    obtain ⟨j, hj, hadmits, -⟩ := h.expands_iff.1 hexpands
    cases h.depth_unique hj hu
    have hk := (Bound.admits_iff hb).1 hadmits
    have hm' := (Bound.admits_iff hb').1 hm
    exact (Bound.admits_iff hb).2 (by omega)
  case upper =>
    intro u _ c hc t ht
    rw [hmerged] at ht
    exact whole u c hc t ht
  case unbounded =>
    intro hd u hexpands c hc
    subst hd
    cases hb
    obtain ⟨k, hu, -⟩ := h.expands_iff.1 hexpands
    rw [hmerged]
    apply OrdSet.ext
    intro t
    exact ⟨whole u c hc t, within u k (-1) c hu hc (fun _ _ _ _ => rfl) t⟩

/-! ## §3 Whatever the provider -/

namespace Context

variable {σ : Type} {ctx : Context σ} {root : TypeName} {d : Int} {e : Exploration}
  {s s' : Session σ}

/-- After some further steps the closure of a type to a depth is asked for, and found by a walk that
    is not cut short. The types in `unresolved` still cannot be described then. -/
def FindsLater (ctx : Context σ) (s : Session σ) (unresolved : NameSet) (u : TypeName) (b : Int)
    (c : NameSet) : Prop :=
  ∃ steps s', (ctx.closure u (some b)).run (ctx.after s steps) = (.ok c, s') ∧
    ctx.Suffices (ctx.after s steps) s' ∧ ∀ t ∈ unresolved, s'.refs t = none

/-- A closure that is found is that of an exploration. -/
theorem exists_explore_of_run_closure {u : TypeName} {b : Int} {c : NameSet}
    (h : (ctx.closure u (some b)).run s = (.ok c, s')) :
    ∃ e, (ctx.explore u b).run s = (.ok e, s') ∧ c = e.types := by
  unfold closure at h
  rcases hexplore : (ctx.explore u b).run s with ⟨f | e, s₁⟩
  · have hfails := Asking.run_bind_of_error (k := fun e => pure e.types) hexplore
    cases h.symm.trans hfails
  · have hfinds := Asking.run_bind_of_ok (k := fun e => pure e.types) hexplore
    cases h.symm.trans hfinds
    exact ⟨e, rfl, rfl⟩

/-- A closure that is found later is that of a walk over at least what is on record before. -/
theorem FindsLater.exists_finished {unresolved c : NameSet} {u : TypeName} {b : Int}
    (h : ctx.FindsLater s unresolved u b c) :
    ∃ refs' bound' w', Bound.ofInt? b = some bound' ∧ Walk.Finished refs' u bound' w' ∧
      c = reachable w'.adjacency u ∧ (∀ t rs, s.refs t = some rs → refs' t = some rs) ∧
      ∀ t ∈ unresolved, refs' t = none := by
  obtain ⟨steps, s', hrun, hnames, hunresolved⟩ := h
  obtain ⟨e, hexplore, rfl⟩ := exists_explore_of_run_closure hrun
  have hexplored := explored_of_run_explore hexplore hnames
  obtain ⟨bound', w', hb, hfinished, rfl⟩ := hexplored.walked
  refine ⟨_, bound', w', hb, hfinished, rfl, ?_, hunresolved⟩
  exact fun t rs hrs => hexplored.kept t rs (get?_after hrs steps)

/-- With transitive edges, the edges that an exploration draws are those of its merge. The direct
    references of an expanded type are among what it reaches. -/
theorem Explored.merges (h : ctx.Explored root d e s s')
    (htransitive : ctx.config.transitiveEdges = true) : e.Merges s s' := by
  obtain ⟨b, w, -, hfinished, rfl⟩ := h.walked
  intro a
  rw [Walk.merged_exploration]
  apply Iff.intro
  · intro ha
    rcases h.edges_drawn a ha with hbefore | ⟨hexpands, hne, hleads | ⟨-, hreach⟩⟩
    · exact .inl hbefore
    · -- a direct reference is a walk of one step
      refine .inr ⟨hexpands, mem_reachable_iff.2 ⟨hne, 0, Refs.ReachesIn.refl.tail ?_⟩⟩
      obtain ⟨rs, hrs, htarget⟩ := hleads
      obtain ⟨k, hk, hadmits, -⟩ := hfinished.expands_iff.1 hexpands
      exact ⟨rs, hfinished.refs_adjacency_iff.2 ⟨k, hk, hadmits, hrs⟩, htarget⟩
    · exact .inr ⟨hexpands, hreach⟩
  · intro ha
    rcases ha with hbefore | ⟨hexpands, hreach⟩
    · exact h.edges_kept a hbefore
    · exact h.reach_drawn htransitive a hexpands hreach

end Context

/-! ## §4 Over an index -/

namespace TypeIndex

/-- In some session that steps lead to, the closure of a type to a depth is found. -/
def FindsClosure (x : TypeIndex) (blind : List TypeName) (config : Config) (u : TypeName) (b : Int)
    (c : NameSet) : Prop :=
  ∃ s s', (x.context blind config).Reached s ∧
    ((x.context blind config).closure u (some b)).run s = (.ok c, s')

variable {x : TypeIndex} {blind : List TypeName} {config : Config}

theorem FindsClosure.eq_reachable_record {u : TypeName} {b : Int} {c : NameSet}
    (h : x.FindsClosure blind config u b c) : ∃ bound, Bound.ofInt? b = some bound ∧
      c = reachable ((x.context blind config).record u bound).adjacency u := by
  obtain ⟨s, s', hs, hrun⟩ := h
  have hctx := lawful_context x blind config
  obtain ⟨e, hexplore, rfl⟩ := Context.exists_explore_of_run_closure hrun
  have he : (((x.context blind config).explore u b).run s).1 = .ok e := by rw [hexplore]
  obtain ⟨bound, hb, -, rfl⟩ := Context.exists_record_of_run_explore hctx (hs.coherent hctx) he
  exact ⟨bound, hb, rfl⟩

/-- What is on record in a session over an index names types of the index alone. -/
theorem suffices_context {s s' : Session Unit} (hs' : (x.context blind config).Coherent s') :
    (x.context blind config).Suffices s s' := by
  obtain ⟨names, hlength, hleads⟩ := (lawful_context x blind config).ample
  refine ⟨names, hlength, ?_⟩
  intro u t hlead
  obtain ⟨rs, hrs, ht⟩ := hlead
  exact hleads u t ⟨rs, hs'.known u rs hrs, ht⟩

/-- With transitive edges and whatever the provider, an exploration that succeeds adds the edges of
    its merge to the graph and no others. What these record for a type lies between the closure of
    the type to the depth that is left there and its whole closure. For the root it is the closure
    to the depth of the exploration, and for every type the whole closure if there is no depth. The
    lower bound needs that types which could not be described still cannot be when the closure is
    asked for. Over an index all these closures are found, in every session that steps lead to. -/
theorem merge_between_closures :
    (∀ {σ : Type} (ctx : Context σ) {root : TypeName} {d : Int} {e : Exploration}
      {s s' : Session σ}, ctx.config.transitiveEdges = true →
      (ctx.explore root d).run s = (.ok e, s') → ctx.Suffices s s' →
        e.Merges s s' ∧ e.Between d (ctx.FindsLater s' e.unresolved) ∧
        ∀ u c, ctx.FindsLater s' ∅ u (-1) c → ∀ t ∈ e.merged u, t ∈ c) ∧
    ∀ (x : TypeIndex) (blind : List TypeName) (config : Config), config.transitiveEdges = true →
      ∀ (s : Session Unit), (x.context blind config).Reached s →
      ∀ (root : TypeName), x.Describes blind root → ∀ (d : Int), -1 ≤ d →
        ∃ e s', ((x.context blind config).explore root d).run s = (.ok e, s') ∧
          e.Merges s s' ∧ e.Between d (x.FindsClosure blind config) ∧
          e.adjacency.expands root = true ∧
          ∀ u, e.adjacency.expands u = true → ∀ (b : Int), -1 ≤ b → ∀ (s₁ : Session Unit),
            (x.context blind config).Reached s₁ →
            ∃ c s₂, ((x.context blind config).closure u (some b)).run s₁ = (.ok c, s₂) := by
  apply And.intro
  · intro σ ctx root d e s s' htransitive hrun hnames
    have hexplored := Context.explored_of_run_explore hrun hnames
    obtain ⟨b, w, hb, hfinished, rfl⟩ := hexplored.walked
    refine ⟨hexplored.merges htransitive, hfinished.between hb ?_, ?_⟩
    · exact fun u b' c hc => hc.exists_finished
    · intro u c hc t ht
      obtain ⟨refs', bound', w', hb', hfinished', rfl, hknown, -⟩ := hc.exists_finished
      cases hb'
      rw [Walk.merged_exploration] at ht
      exact hfinished.mem_closure_of_mem_reachable hfinished' hknown ht
  · intro x blind config htransitive s hs root hroot d hd
    have hctx := lawful_context x blind config
    obtain ⟨b, hb⟩ := Bound.exists_ofInt?_eq_some hd
    obtain ⟨s', hrun, hgained⟩ := exists_run_explore hs hroot hb
    have hfinished := Context.finished_record hctx root b
    have hexplored := Context.explored_of_run_explore hrun
      (suffices_context (hgained.coherent (hs.coherent hctx)))
    refine ⟨_, s', hrun, hexplored.merges htransitive, hfinished.between hb ?_, ?_, ?_⟩
    · -- all walks are over the references that the index fixes
      intro u b' c hc
      obtain ⟨bound', hb', rfl⟩ := hc.eq_reachable_record
      refine ⟨_, bound', _, hb', Context.finished_record hctx u bound', rfl,
        fun _ _ hrs => hrs, ?_⟩
      intro t ht
      obtain ⟨-, -, -, hnone⟩ := (hfinished.given_up t).1 ht
      exact hnone
    · exact hfinished.expands_iff_exists_walk.2
        ⟨exists_refs_context_iff.2 hroot, 0, (Bound.admits_iff hb).2 (by omega), .refl⟩
    · intro u hu b' hb' s₁ hs₁
      obtain ⟨bound', hbound'⟩ := Bound.exists_ofInt?_eq_some hb'
      have hdescribes := exists_refs_context_iff.1 (hfinished.expands_iff_exists_walk.1 hu).1
      obtain ⟨s₂, hrun₂, -⟩ := exists_run_explore hs₁ hdescribes hbound'
      exact ⟨_, s₂, Asking.run_bind_of_ok hrun₂⟩

/-- Exploring from `A` to depth zero, with `C` blind. -/
theorem merge_between_closures_ring :
    ∃ e s' c, ((ring.context ["C"] { transitiveEdges := true }).explore "A" 0).run Session.fresh =
        (.ok e, s') ∧
      e.Merges Session.fresh s' ∧
      e.Between 0
        ((ring.context ["C"] { transitiveEdges := true }).FindsLater s' e.unresolved) ∧
      ring.FindsClosure ["C"] { transitiveEdges := true } "A" (-1) c ∧
      ∀ t ∈ e.merged "A", t ∈ c := by
  have hroot : ring.Describes ["C"] "A" := ⟨by decide, by decide⟩
  have hs : (ring.context ["C"] { transitiveEdges := true }).Reached Session.fresh := ⟨[], rfl⟩
  have hctx := lawful_context ring ["C"] { transitiveEdges := true }
  obtain ⟨hgeneral, hindex⟩ := merge_between_closures
  obtain ⟨e, s', hrun, -, hbetween, hexpands, hfound⟩ :=
    hindex ring ["C"] { transitiveEdges := true } rfl _ hs "A" hroot 0 (by decide)
  obtain ⟨c, s₂, hc⟩ := hfound "A" hexpands (-1) (by decide) _ hs
  have hclosure : ring.FindsClosure ["C"] { transitiveEdges := true } "A" (-1) c := ⟨_, s₂, hs, hc⟩
  have hnames : (ring.context ["C"] { transitiveEdges := true }).Suffices Session.fresh s' := by
    obtain ⟨s'', hrun', hgained⟩ := exists_run_explore hs hroot (d := 0) rfl
    cases hrun.symm.trans hrun'
    exact suffices_context (hgained.coherent (hs.coherent hctx))
  obtain ⟨hmerges, hlater, -⟩ := hgeneral _ rfl hrun hnames
  exact ⟨e, s', c, hrun, hmerges, hlater, hclosure, hbetween.upper "A" hexpands c hclosure⟩

end TypeIndex

end TypeAtlas
