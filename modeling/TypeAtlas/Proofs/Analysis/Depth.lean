import TypeAtlas.Proofs.Analysis.Gains

/-!
# Analyses to a refused depth

An analysis looks at its depth no sooner than it walks from a root. By then all roots are
registered, those in front that cannot be described have been passed over, and the references of
the root itself have been computed. So it fails for its depth exactly if it comes to a root that can
be described, and what it did before stays done.

Main statement: `TypeIndex.analysis_below_depth`.
-/

namespace TypeAtlas

namespace Context

variable {ctx : Context Unit} {known : TypeName → Bool} {d : Int} {t : TypeName}

/-! ## §1 Measuring roots -/

/-- The metrics of a type that can be described learn its references before the walk from it
    refuses the depth. -/
theorem yields_metrics_depthBelow (hctx : ctx.Lawful) {rs : NameSet} (ht : ctx.refs t = some rs)
    (hb : Bound.ofInt? d = none) :
    ctx.Yields (ctx.metrics t (some d)) (.error (.depthBelow d)) (.learning {t}) := by
  obtain ⟨⟨ms, hms⟩, ⟨fs, hfs⟩, -⟩ := hctx.members t rs ht
  have hclosure : ctx.Yields (ctx.closure t (some d)) (.error (.depthBelow d)) ∅ :=
    (yields_explore_depthBelow hb).bind_error
  unfold metrics
  apply (yields_ask_of_eq hms).empty_bind
  apply (yields_ask_of_eq hfs).empty_bind
  exact (yields_directReferences ht).bind_empty hclosure.bind_error

/-- Roots that cannot be described are passed over one after the other, whatever the depth. -/
theorem yields_foldlM_measureRoot_unresolved (hctx : ctx.Lawful) {roots : List TypeName}
    (hroots : ∀ t ∈ roots, ctx.refs t = none) (d : Int) (acc : Parted Metrics) :
    ctx.Yields (roots.foldlM (ctx.measureRoot d) acc)
      (.ok { acc with lost := acc.lost ++ roots }) ∅ := by
  induction roots generalizing acc with
  | nil =>
    rw [List.append_nil]
    exact yields_pure acc
  | cons t roots ih =>
    have hfirst := yields_measureRoot_unresolved hctx (hroots t (.head _)) d acc
    have hrest := ih (fun u hu => hroots u (.tail _ hu)) { acc with lost := acc.lost ++ [t] }
    rw [List.append_assoc] at hrest
    rw [List.foldlM_cons]
    exact hfirst.empty_bind hrest

/-- Measuring roots fails for a refused depth at the first root that can be described, when the
    references of that root have been learned. -/
theorem yields_measureRoots_depthBelow (hctx : ctx.Lawful) (hb : Bound.ofInt? d = none)
    {roots : List TypeName} (ht : roots.find? (fun u => (ctx.refs u).isSome) = some t) :
    ctx.Yields (ctx.measureRoots d roots) (.error (.depthBelow d)) (.learning {t}) := by
  obtain ⟨hsome, before, after, rfl, hbefore⟩ := List.find?_eq_some_iff_append.1 ht
  obtain ⟨rs, hrs⟩ := Option.isSome_iff_exists.1 hsome
  have hblind : ∀ u ∈ before, ctx.refs u = none := by
    intro u hu
    simpa using hbefore u hu
  have hpassed := yields_foldlM_measureRoot_unresolved hctx hblind d {}
  have hroot : ∀ acc, ctx.Yields (ctx.measureRoot d acc t) (.error (.depthBelow d))
      (.learning {t}) :=
    fun acc => (yields_metrics_depthBelow hctx hrs hb).orUnresolved.bind_error
  rw [measureRoots_eq_foldlM, List.foldlM_append]
  apply hpassed.empty_bind
  -- nothing after the root is looked at
  rw [List.foldlM_cons]
  exact (hroot _).bind_error

/-! ## §2 Analyses -/

/-- What registering the roots of an analysis adds. -/
def registering (known : TypeName → Bool) (names : List String) : Gain :=
  ⟨∅, ∅, {t | t ∈ rootsAmong known names}⟩

/-- Where only roots are registered, nothing is cached or drawn. -/
theorem Gained.eq_of_registering {names : List String} {s s' : Session Unit}
    (h : ctx.Gained (registering known names) s s') :
    s'.descriptors = s.descriptors ∧ s'.graph.edges = s.graph.edges := by
  apply And.intro
  · apply OrdMap.ext_get?
    intro u
    apply Option.ext
    intro us
    rw [h.descriptors]
    exact or_iff_left fun hlearned => hlearned.1
  · apply OrdSet.ext
    intro e
    rw [h.edges]
    apply or_iff_left
    intro hdraws
    rcases hdraws with hmem | ⟨hmem, -⟩
    · exact hmem
    · exact hmem

/-- Where the references of one type are learned besides, they are cached and drawn, and nothing
    else is. -/
theorem Gained.of_registering_learning {names : List String} {s s' : Session Unit} {rs : NameSet}
    (h : ctx.Gained (registering known names ∪ .learning {t}) s s') (ht : ctx.refs t = some rs) :
    (∀ u us, s'.descriptors.get? u = some us ↔
      s.descriptors.get? u = some us ∨ (u = t ∧ us = rs)) ∧
    ∀ e, e ∈ s'.graph.edges ↔ e ∈ s.graph.edges ∨ (e.source = t ∧ e.target ∈ rs) := by
  have hlearned : ∀ u, u ∈ (registering known names ∪ .learning {t}).learned ↔ u = t :=
    fun u => or_iff_right fun hmem => hmem
  apply And.intro
  · intro u us
    rw [h.descriptors, hlearned]
    apply or_congr_right
    apply and_congr_right
    rintro rfl
    rw [ht, Option.some_inj, eq_comm]
  · intro e
    rw [h.edges]
    apply or_congr_right
    apply Iff.intro
    · intro hdraws
      rcases hdraws with (hmem | hmem) | ⟨hsource, rs', hrs', hmem⟩
      · exact hmem.elim
      · exact hmem.elim
      · rw [hlearned] at hsource
        rw [hsource] at hrs'
        cases hrs'.symm.trans ht
        exact ⟨hsource, hmem⟩
    · intro hnew
      obtain ⟨hsource, hmem⟩ := hnew
      exact .inr ⟨(hlearned _).2 hsource, rs, by rw [hsource, ht], hmem⟩

/-- In a coherent session an analysis of roots that cannot be described succeeds, whatever the
    depth. It registers the roots, does nothing else, and has no metrics to tell. -/
theorem run_analysis_of_unresolved (hctx : ctx.Lawful) (hknows : ctx.Knows known)
    {s : Session Unit} (hs : ctx.Coherent s) {names : List String} (depth : Option Int)
    (hroots : ∀ t ∈ rootsAmong known names, ctx.refs t = none) :
    ∃ s', (ctx.analysis names depth).run s =
      (.ok { depth := ctx.depthOr depth
             metrics := []
             unresolved := ((cleanNames names).filter fun n => !known n) ++ rootsAmong known names
             nodes := s'.graph.nodeRows
             edges := s'.graph.edgeRows }, s') ∧
      ctx.Gained (registering known names) s s' := by
  have hregister := yields_registerRoots hknows (nodup_cleanNames names)
  have hmeasure := yields_foldlM_measureRoot_unresolved hctx hroots (ctx.depthOr depth) {}
  obtain ⟨s₁, hrun₁, hgain₁⟩ := hregister.exists_run hs
  obtain ⟨s₂, hrun₂, hgain₂⟩ := hmeasure.exists_run (hgain₁.coherent hs)
  have hgain := hgain₁.trans hgain₂
  rw [Gain.union_empty] at hgain
  refine ⟨s₂, ?_, hgain⟩
  rw [← measureRoots_eq_foldlM] at hrun₂
  unfold rootsAmong at hrun₂
  unfold analysis
  rw [Asking.run_bind_of_ok hrun₁, Asking.run_bind_of_ok hrun₂,
    Asking.run_bind_of_ok (Run.run_graph s₂)]
  rfl

/-- In a coherent session an analysis to a refused depth fails if a root can be described. It
    registers all roots, and learns the references of the first such one. -/
theorem run_analysis_depthBelow (hctx : ctx.Lawful) (hknows : ctx.Knows known)
    {s : Session Unit} (hs : ctx.Coherent s) {names : List String} {depth : Option Int}
    (hb : Bound.ofInt? (ctx.depthOr depth) = none)
    (ht : (rootsAmong known names).find? (fun u => (ctx.refs u).isSome) = some t) :
    ∃ s', (ctx.analysis names depth).run s = (.error (.depthBelow (ctx.depthOr depth)), s') ∧
      ctx.Gained (registering known names ∪ .learning {t}) s s' := by
  have hregister := yields_registerRoots hknows (nodup_cleanNames names)
  have hmeasure := yields_measureRoots_depthBelow hctx hb ht
  obtain ⟨s₁, hrun₁, hgain₁⟩ := hregister.exists_run hs
  obtain ⟨s₂, hrun₂, hgain₂⟩ := hmeasure.exists_run (hgain₁.coherent hs)
  refine ⟨s₂, ?_, hgain₁.trans hgain₂⟩
  unfold analysis
  rw [Asking.run_bind_of_ok hrun₁]
  exact Asking.run_bind_of_error hrun₂

end Context

namespace TypeIndex

/-! ## §3 Sessions over an index -/

variable {x : TypeIndex} {blind : List TypeName} {config : Config}

theorem isSome_refs_context (t : TypeName) :
    ((x.context blind config).refs t).isSome = (x.contains t && !blind.contains t) := by
  have hsome : ((x.context blind config).refs t).isSome = true ↔ x.Describes blind t := by
    rw [Option.isSome_iff_exists]
    exact exists_refs_context_iff
  rw [Bool.eq_iff_iff, hsome]
  simp [Describes]

/-- The first root of an analysis that can be described is the first name in the index that is not
    blind. -/
theorem find?_rootsAmong_isSome_refs_context (x : TypeIndex) (blind : List TypeName)
    (config : Config) (names : List String) :
    (Context.rootsAmong x.contains names).find?
        (fun u => ((x.context blind config).refs u).isSome) =
      (cleanNames names).find? fun n => x.contains n && !blind.contains n := by
  unfold Context.rootsAmong
  rw [List.find?_filter]
  congr 1
  funext n
  rw [isSome_refs_context]
  cases x.contains n <;> simp

/-- What an analysis of the names `ns` to the refused depth `d` makes of the session `s` over the
    index, if it has the outcome `r` and leaves the session `s'`. -/
structure Refuses (x : TypeIndex) (blind : List TypeName) (config : Config) (ns : List TypeName)
    (d : Int) (s s' : Session Unit) (r : Except Failure Analysis) : Prop where
  /-- It fails exactly if one of the names is that of a type in the index which is not blind. -/
  fails : (∃ f, r = .error f) ↔ ∃ n ∈ ns, x.Describes blind n
  /-- The depth is what it fails for. -/
  failure : ∀ f, r = .error f → f = .depthBelow d
  /-- Whether or not it fails, the names in the index are registered as roots, and no others. -/
  roots : ∀ u, u ∈ s'.graph.roots ↔ u ∈ s.graph.roots ∨ (u ∈ ns ∧ x.contains u = true)
  /-- If it fails, the references of the first such type are cached and drawn, and nothing else. -/
  learned : ∀ f, r = .error f → ∃ t rs,
    ns.find? (fun n => x.contains n && !blind.contains n) = some t ∧
    (((x.context blind config).directReferences t).run s).1 = .ok rs ∧
    (∀ u us, s'.descriptors.get? u = some us ↔
      s.descriptors.get? u = some us ∨ (u = t ∧ us = rs)) ∧
    ∀ e, e ∈ s'.graph.edges ↔ e ∈ s.graph.edges ∨ (e.source = t ∧ e.target ∈ rs)
  /-- If it does not fail, there are no metrics, and nothing is cached or drawn. -/
  unchanged : ∀ a, r = .ok a → a.metrics = [] ∧
    s'.descriptors = s.descriptors ∧ s'.graph.edges = s.graph.edges

/-- From every session over an index that steps lead to, an analysis to a depth below minus one
    fails exactly if it is given the name of a type that can be described. Either way it registers
    its roots; the first type that can be described has its references computed before the depth is
    refused, and nothing else is done. -/
theorem analysis_below_depth (x : TypeIndex) (blind : List TypeName) (config : Config)
    {s : Session Unit} (hs : (x.context blind config).Reached s) (names : List String)
    {depth : Option Int} (hdepth : (x.context blind config).depthOr depth < -1) :
    ∃ r s', ((x.context blind config).analysis names depth).run s = (r, s') ∧
      x.Refuses blind config ((names.map Text.strip).filter (· != "")).eraseDups
        ((x.context blind config).depthOr depth) s s' r := by
  have hctx := lawful_context x blind config
  have hknows := knows_context x blind config
  have hcoherent := hs.coherent hctx
  have hb := Bound.ofInt?_eq_none_iff.2 hdepth
  rw [← TypeIndex.distinct_eq_eraseDups, ← cleanNames_eq]
  have hfind := x.find?_rootsAmong_isSome_refs_context blind config names
  cases hfirst : (cleanNames names).find? fun n => x.contains n && !blind.contains n with
  | none =>
    -- no root can be described
    have hblind : ∀ t ∈ Context.rootsAmong x.contains names,
        (x.context blind config).refs t = none := by
      intro t ht
      simpa using List.find?_eq_none.1 (hfind.trans hfirst) t ht
    obtain ⟨s', hrun, hgain⟩ :=
      Context.run_analysis_of_unresolved hctx hknows hcoherent depth hblind
    refine ⟨_, s', hrun, ?_⟩
    constructor
    case fails =>
      apply iff_of_false
      · exact nofun
      · intro h
        obtain ⟨n, hn, hcontains, hnot⟩ := h
        have hskipped := List.find?_eq_none.1 hfirst n hn
        simp [hcontains, hnot] at hskipped
    case failure => exact nofun
    case roots =>
      intro u
      rw [hgain.roots, ← Context.mem_rootsAmong_iff]
      exact Iff.rfl
    case learned => exact nofun
    case unchanged =>
      intro a ha
      cases ha
      exact ⟨rfl, hgain.eq_of_registering⟩
  | some t =>
    obtain ⟨s', hrun, hgain⟩ :=
      Context.run_analysis_depthBelow hctx hknows hcoherent hb (hfind.trans hfirst)
    have hdescribes : x.Describes blind t := by
      simpa [Describes] using List.find?_some hfirst
    obtain ⟨rs, hrs⟩ : ∃ rs, (x.context blind config).refs t = some rs :=
      exists_refs_context_iff.2 hdescribes
    refine ⟨_, s', hrun, ?_⟩
    constructor
    case fails =>
      apply iff_of_true
      · exact ⟨_, rfl⟩
      · exact ⟨t, List.mem_of_find?_eq_some hfirst, hdescribes⟩
    case failure =>
      intro f hf
      cases hf
      rfl
    case roots =>
      intro u
      rw [hgain.roots, ← Context.mem_rootsAmong_iff]
      apply or_congr_right
      exact or_iff_left (Set.notMem_empty u)
    case learned =>
      intro f hf
      have hdirect := (Context.refs_eq_some_iff_run hctx hcoherent).1 hrs
      exact ⟨t, rs, hfirst, hdirect, hgain.of_registering_learning hrs⟩
    case unchanged => exact nofun

/-- The first name is that of a blind type, and the type of the third one is cached before the depth
    is refused. The type of the last one is registered, but not looked at any more. -/
theorem analysis_below_depth_ring :
    ∃ s', ((ring.context ["C"] {}).analysis [" C ", "Z", "B", "A"] (some (-2))).run
        ((ring.context ["C"] {}).after Session.fresh [.direct "C"]) =
          (.error (.depthBelow (-2)), s') ∧
      (∀ u, u ∈ ["C", "B", "A"] → u ∈ s'.graph.roots) ∧
      (∃ rs, s'.descriptors.get? "B" = some rs) ∧ s'.descriptors.get? "A" = none := by
  have hdepth : (ring.context ["C"] {}).depthOr (some (-2)) < -1 := by decide
  obtain ⟨r, s', hrun, hrefuses⟩ :=
    analysis_below_depth ring ["C"] {} ⟨[.direct "C"], rfl⟩ [" C ", "Z", "B", "A"] hdepth
  have hnames : (([" C ", "Z", "B", "A"].map Text.strip).filter (· != "")).eraseDups =
      ["C", "Z", "B", "A"] := by decide +kernel
  rw [hnames] at hrefuses
  obtain ⟨f, rfl⟩ := hrefuses.fails.2 ⟨"B", by decide, by decide, by decide⟩
  cases hrefuses.failure f rfl
  obtain ⟨t, rs, hfirst, -, hcached, -⟩ := hrefuses.learned _ rfl
  have htold : "B" = t := Option.some.inj ((show _ = some "B" by decide).symm.trans hfirst)
  subst htold
  refine ⟨s', hrun, ?_, ⟨rs, (hcached "B" rs).2 (.inr ⟨rfl, rfl⟩)⟩, ?_⟩
  · intro u hu
    have hindex : ∀ n ∈ ["C", "B", "A"], n ∈ ["C", "Z", "B", "A"] ∧ ring.contains n = true := by
      decide
    exact (hrefuses.roots u).2 (.inr (hindex u hu))
  · rw [Option.eq_none_iff_forall_ne_some]
    intro us hus
    rcases (hcached "A" us).1 hus with hbefore | ⟨hother, -⟩
    · -- nothing was cached for the blind type
      have hnone : ((ring.context ["C"] {}).after Session.fresh
          [.direct "C"]).descriptors.get? "A" = none := by
        decide +kernel
      cases hnone.symm.trans hbefore
    · exact absurd hother (by decide)

end TypeIndex

end TypeAtlas
