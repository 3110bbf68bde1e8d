import TypeAtlas.Proofs.Closure.Tree
import TypeAtlas.Proofs.Session.Coherence

/-!
# Primitive types in sessions

A schema may describe types whose names stand for primitive types, and such a type can be asked
about. But no direct reference leads to it, so it is told by no walk and referenced by no edge. It
references others only if a step has asked about it: every type whose references are cached is one
that walks lead to from a type that has been asked about.

Main statement: `TypeIndex.primitives_kept_out`.
-/

namespace TypeAtlas

/-- The exploration tells no barred type, its root apart. -/
structure Exploration.Spares (barred : TypeName → Bool) (x : Exploration) : Prop where
  types : ∀ u ∈ x.types, barred u = false
  depths : ∀ u k, (u, k) ∈ x.depths → u ≠ x.root → barred u = false
  unresolved : ∀ u ∈ x.unresolved, barred u = false
  entries : ∀ entry ∈ x.entries, ∀ u, entry.Holds u → barred u = false

namespace Context

variable {ctx : Context Unit} {g : Gain} {s s' : Session Unit} {Asked : TypeName → Prop}
  {barred : TypeName → Bool}

/-! ## §1 Where cached types come from -/

/-- The references that a session has cached are those of types that walks lead to from asked
    ones. -/
structure Stems (ctx : Context Unit) (Asked : TypeName → Prop) (s : Session Unit) : Prop where
  coherent : ctx.Coherent s
  asked : ∀ t rs, s.descriptors.get? t = some rs →
    ∃ u, Asked u ∧ ∃ n, ctx.refs.ReachesIn u n t

theorem stems_fresh : ctx.Stems Asked Session.fresh where
  coherent := coherent_fresh
  asked t rs h := by cases h

/-- A session still stems from the asked types if walks from them lead to all types learned. -/
theorem Stems.of_gained (hs : ctx.Stems Asked s) (hg : ctx.Gained g s s')
    (hlearned : ∀ t ∈ g.learned, ∃ u, Asked u ∧ ∃ n, ctx.refs.ReachesIn u n t) :
    ctx.Stems Asked s' where
  coherent := hg.coherent hs.coherent
  asked t rs ht := by
    rcases (hg.descriptors t rs).1 ht with hold | ⟨hnew, -⟩
    · exact hs.asked t rs hold
    · exact hlearned t hnew

theorem invariantOn_stems (hctx : ctx.Lawful)
    (hresolve : ∀ n t, Asked n → ((ctx.provider.resolve n).run ()).1 = .ok t → Asked t) :
    ctx.InvariantOn Asked (ctx.Stems Asked) := by
  refine invariantOn_of_gains hctx (fun _ hs => hs.coherent) ?_ hresolve
  intro g s s' hoffers hg hs
  apply hs.of_gained hg
  intro t ht
  cases hoffers with
  | learning hasked =>
    cases ht
    exact ⟨t, hasked, 0, .refl⟩
  | exploring bound hroot =>
    -- an exploration expands what walks from its root lead to
    obtain ⟨-, n, -, hreach⟩ := (finished_record hctx _ bound).expands_iff_exists_walk.1 ht
    exact ⟨_, hroot, n, hreach⟩
  | nothing => exact ht.elim
  | rooting _ => exact ht.elim

/-- A primitive type is cached only if it has been asked about, for no reference leads to it. -/
theorem Stems.asked_of_isPrimitive (hs : ctx.Stems Asked s) {t : TypeName} {rs : NameSet}
    (ht : s.descriptors.get? t = some rs) (hprimitive : ctx.provider.isPrimitive t = true) :
    Asked t := by
  obtain ⟨u, hasked, n, hreach⟩ := hs.asked t rs ht
  cases n with
  | zero =>
    cases hreach
    exact hasked
  | succ n =>
    rw [isPrimitive_of_reachesIn hreach] at hprimitive
    cases hprimitive

/-! ## §2 What a session tells -/

/-- Nothing that is asked for in the session tells a barred type as a reference or as the end of a
    walk, and no edge of the graph leads to one. -/
structure Spares (ctx : Context Unit) (barred : TypeName → Bool) (s : Session Unit) : Prop where
  cached : ∀ t rs, s.descriptors.get? t = some rs → ∀ u ∈ rs, barred u = false
  direct : ∀ t rs, ((ctx.directReferences t).run s).1 = .ok rs → ∀ u ∈ rs, barred u = false
  neighbourhood : ∀ t n, ((ctx.neighbourhood t).run s).1 = .ok n →
    ∀ u ∈ n.references, barred u = false
  explore : ∀ root depth e, ((ctx.explore root depth).run s).1 = .ok e →
    e.root = root ∧ e.Spares barred
  closure : ∀ root depth ts, ((ctx.closure root depth).run s).1 = .ok ts →
    ∀ u ∈ ts, barred u = false
  tree : ∀ root depth c, ((ctx.closureTree root depth).run s).1 = .ok c →
    (∀ u ∈ c.types, barred u = false) ∧ (∀ u ∈ c.unresolved, barred u = false) ∧
      ∀ entry ∈ c.entries, ∀ u, entry.Holds u → barred u = false
  keys : ∀ k, s.graph.contains k = true → barred k = false
  nodes : ∀ row ∈ s.graph.nodeRows, barred row.type = false
  edges : ∀ row ∈ s.graph.edgeRows, barred row.target = false

/-- What walks of at least one reference lead to is not barred, if no reference leads to what is. -/
theorem not_barred_of_reachesIn (hbarred : ∀ u t, ctx.refs.Leads u t → barred t = false)
    {start t : TypeName} {n : Nat} (h : ctx.refs.ReachesIn start (n + 1) t) : barred t = false := by
  obtain ⟨u, -, hlead⟩ := h.exists_last
  exact hbarred u t hlead

/-- An exploration from a root that can be described tells no barred type besides it exactly when
    it reaches none. -/
theorem spares_iff_of_finished {root : TypeName} {bound : Bound} {w : Walk}
    (h : Walk.Finished ctx.refs root bound w) (hroot : ∃ rs, ctx.refs root = some rs) :
    (w.exploration root bound).Spares barred ↔
      ∀ u ∈ reachable w.adjacency root, barred u = false := by
  apply Iff.intro
  · exact fun hspares => hspares.types
  · intro htypes
    have hdepths : ∀ u k, (u, k) ∈ w.depths → u ≠ root → barred u = false := by
      intro u k hu hne
      rcases h.mem_depths_iff_reachable.1 ⟨k, hu⟩ with rfl | hmem
      · exact absurd rfl hne
      · exact htypes u hmem
    refine { types := htypes, depths := hdepths, unresolved := ?unresolved, entries := ?entries }
    case unresolved =>
      -- the root is not among the types given up
      intro u hu
      obtain ⟨k, hk, -, hnone⟩ := (h.given_up u).1 hu
      refine hdepths u k hk ?_
      rintro rfl
      obtain ⟨rs, hrs⟩ := hroot
      rw [hrs] at hnone
      cases hnone
    case entries =>
      intro entry hentry u hu
      exact htypes u (h.mem_parents_iff_reachable.1 (Exploration.mem_parents_of_holds hentry hu))

theorem spares_of_run_explore (hctx : ctx.Lawful)
    (hbarred : ∀ u t, ctx.refs.Leads u t → barred t = false) (hs : ctx.Coherent s)
    {root : TypeName} {depth : Int} {e : Exploration}
    (he : ((ctx.explore root depth).run s).1 = .ok e) : e.root = root ∧ e.Spares barred := by
  obtain ⟨bound, -, hroot, rfl⟩ := exists_record_of_run_explore hctx hs he
  have hfinished := finished_record hctx root bound
  refine ⟨rfl, (spares_iff_of_finished hfinished hroot).2 ?_⟩
  intro u hu
  obtain ⟨-, n, -, hreach⟩ := hfinished.mem_reachable_root_iff.1 hu
  exact not_barred_of_reachesIn hbarred hreach

/-- A grounded session spares the types that no reference leads to. -/
theorem Grounded.spares_of_leads (hctx : ctx.Lawful)
    (hbarred : ∀ u t, ctx.refs.Leads u t → barred t = false) (hs : ctx.Grounded s) :
    ctx.Spares barred s := by
  have hedges : ∀ e ∈ s.graph.edges, barred e.target = false := by
    intro e he
    obtain ⟨-, n, hreach, -⟩ := hs.explained e he
    exact not_barred_of_reachesIn hbarred (hreach.mono hs.coherent.known)
  have hdirect : ∀ t rs, ((ctx.directReferences t).run s).1 = .ok rs →
      ∀ u ∈ rs, barred u = false := by
    intro t rs hrs u hu
    exact hbarred t u ⟨rs, (refs_eq_some_iff_run hctx hs.coherent).2 hrs, hu⟩
  constructor
  case cached => exact fun t rs hrs u hu => hbarred t u ⟨rs, hs.coherent.known t rs hrs, hu⟩
  case direct => exact hdirect
  case neighbourhood =>
    -- what the neighbourhood tells of references is what the session tells of them
    intro t n hn
    obtain ⟨rs, s', hrun, hrest⟩ := Asking.exists_of_run_bind_eq_ok hn
    cases hrest
    exact hdirect t _ (congrArg Prod.fst hrun)
  case explore =>
    exact fun root depth e he => spares_of_run_explore hctx hbarred hs.coherent he
  case closure =>
    intro root depth ts hts
    obtain ⟨e, s', hrun, hrest⟩ := Asking.exists_of_run_bind_eq_ok hts
    cases hrest
    exact (spares_of_run_explore hctx hbarred hs.coherent (congrArg Prod.fst hrun)).2.types
  case tree =>
    intro root depth c hc
    obtain ⟨e, s', hrun, hrest⟩ := Asking.exists_of_run_bind_eq_ok hc
    cases hrest
    obtain ⟨-, hspares⟩ :=
      spares_of_run_explore hctx hbarred hs.coherent (congrArg Prod.fst hrun)
    exact ⟨hspares.types, hspares.unresolved, hspares.entries⟩
  case keys =>
    intro k hk
    obtain ⟨v, hv⟩ := Graph.contains_iff.1 hk
    exact hedges _ hv
  case nodes =>
    intro row hrow
    obtain ⟨v, hv⟩ := Graph.contains_iff.1 (Graph.mem_nodeRows_iff.1 hrow).1
    exact hedges _ hv
  case edges => exact fun row hrow => hedges _ (Graph.mem_edgeRows_iff.1 hrow).1.1

/-- A grounded session spares the primitive types. -/
theorem Grounded.spares (hctx : ctx.Lawful) (hs : ctx.Grounded s) :
    ctx.Spares ctx.provider.isPrimitive s :=
  hs.spares_of_leads hctx fun _ _ hlead => (isPrimitive_of_leads hlead).1

end Context

/-! ## §3 Sessions over an index -/

namespace TypeIndex

/-- After any steps that record no edges by themselves, whatever the index describes, no primitive
    or array-like type is told as a reference or as the end of a walk, or has referrers. Such a
    type refers to others only if one of the steps has asked about it. -/
theorem primitives_kept_out (x : TypeIndex) (blind : List TypeName) (config : Config)
    {steps : List Step} (hsteps : ∀ step ∈ steps, step.recordsEdges = false) {s : Session Unit}
    (hs : s = (x.context blind config).after Session.fresh steps) :
    (x.context blind config).Spares x.isPrimitive s ∧
    ∀ k v, v ∈ s.graph.referrers k → x.isPrimitive v = true → ∃ step ∈ steps, step.Asks v := by
  have hctx := lawful_context x blind config
  have hgrounded : (x.context blind config).Grounded s := by
    rw [hs]
    exact (Context.invariant_grounded hctx).after hsteps Context.grounded_fresh
  -- an index resolves a name to itself alone
  have hresolve : ∀ n t, (∃ step ∈ steps, step.Asks n) →
      (((x.context blind config).provider.resolve n).run ()).1 = .ok t →
      ∃ step ∈ steps, step.Asks t := by
    intro n t hn ht
    rw [(knows_context x blind config).resolves] at ht
    split at ht
    case isTrue =>
      cases ht
      exact hn
    case isFalse => cases ht
  have hstems : (x.context blind config).Stems (fun u => ∃ step ∈ steps, step.Asks u) s := by
    rw [hs]
    exact (Context.invariantOn_stems hctx hresolve).after hsteps
      (fun step hstep u hu => ⟨step, hstep, hu⟩) Context.stems_fresh
  refine ⟨hgrounded.spares hctx, ?_⟩
  intro k v hv hprimitive
  -- the source of an edge is cached
  obtain ⟨-, n, hreach, -⟩ := hgrounded.explained _ (Graph.mem_referrers_iff.1 hv)
  obtain ⟨rs, hrs⟩ := hreach.exists_refs_start
  exact hstems.asked_of_isPrimitive hrs hprimitive

/-- An index that describes a type of a primitive name, and another type that refers to it. -/
def boxes : TypeIndex :=
  ofSchema { types := [{ name := "Box", fields := [{ name := "content", type := "int" }] },
    { name := "int", declaring := some "Box" }] } []

/-- The type `int` is asked about, so it has references, but no type refers to it. -/
theorem primitives_kept_out_boxes :
    ∃ s, s = (boxes.context [] {}).after Session.fresh
        [.explore "Box" none, .analyze [" int"] none] ∧
      boxes.isPrimitive "int" = true ∧ s.graph.contains "int" = false ∧
      "int" ∈ s.graph.referrers "Box" ∧
      ∃ step ∈ [Step.explore "Box" none, .analyze [" int"] none], step.Asks "int" := by
  have hsteps : ∀ step ∈ [Step.explore "Box" none, .analyze [" int"] none],
      step.recordsEdges = false := by
    decide
  have hprimitive : boxes.isPrimitive "int" = true := by decide +kernel
  have hedge : "int" ∈ ((boxes.context [] {}).after Session.fresh
      [.explore "Box" none, .analyze [" int"] none]).graph.referrers "Box" := by
    decide +kernel
  obtain ⟨hspares, hasked⟩ := primitives_kept_out boxes [] {} hsteps rfl
  refine ⟨_, rfl, hprimitive, ?_, hedge, hasked "Box" "int" hedge hprimitive⟩
  rw [← Bool.not_eq_true]
  intro hkey
  rw [hspares.keys "int" hkey] at hprimitive
  cases hprimitive

end TypeIndex

end TypeAtlas
