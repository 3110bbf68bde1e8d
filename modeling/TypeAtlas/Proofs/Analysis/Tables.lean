import TypeAtlas.Proofs.Analysis.Gains
import TypeAtlas.Proofs.Graph.Readings
import TypeAtlas.Proofs.Index.Building

/-!
# The tables of an analysis

What the rows of an analysis mean in terms of walks over direct references. In a new session the
graph holds nothing but what the analysis itself draws, so with transitive edges the rows are the
walks between types reached from the roots, and without them the direct references of the types that
the depth admits.

Main statement: `TypeIndex.analysis_tables`.
-/

namespace TypeAtlas

open Schema

/-! ## §1 Tables of a graph -/

/-- The tables of an analysis are those of the edges that `drawn` tells from their sources and
    targets. The counter of a root counts the rows that leave it. -/
structure Analysis.Tabulates (a : Analysis) (isRoot : TypeName → Prop)
    (drawn : TypeName → TypeName → Prop) (counter : Counter) : Prop where
  /-- There is a row for every edge, and for nothing else. -/
  rows : ∀ v t, (∃ row ∈ a.edges, row.source = v ∧ row.target = t) ↔ drawn v t
  /-- The rows are strictly ascending by target and then by source. -/
  rows_ascending : Ascending (a.edges.map Graph.EdgeRow.edge)
  /-- Rows that leave a root weigh three, and the others one. -/
  weight : ∀ row ∈ a.edges,
    (isRoot row.source → row.weight = 3) ∧ (¬ isRoot row.source → row.weight = 1)
  /-- There is a node for every target of a row, and for nothing else, in strictly ascending
      order. -/
  nodes : ∀ t, t ∈ a.nodes.map Graph.NodeRow.type ↔ ∃ row ∈ a.edges, row.target = t
  nodes_ascending : Ascending (a.nodes.map Graph.NodeRow.type)
  /-- A node has as many connections as rows lead to it. -/
  connections : ∀ node ∈ a.nodes,
    node.connections = a.edges.countP fun row => row.target == node.type
  /-- As many rows leave a root as its counter says. -/
  leaving : ∀ m ∈ a.metrics,
    (a.edges.countP fun row => row.source == m.type) = m.count counter

namespace Graph

variable {g : Graph}

/-- An analysis that reads its tables out of a graph without nameless ends tabulates its edges. -/
theorem Named.tabulates (hg : g.Named) {a : Analysis} {isRoot : TypeName → Prop}
    {drawn : TypeName → TypeName → Prop} {counter : Counter} (hnodes : a.nodes = g.nodeRows)
    (hedges : a.edges = g.edgeRows) (hroots : ∀ t, t ∈ g.roots ↔ isRoot t)
    (hdrawn : ∀ v t, (⟨t, v⟩ : Edge) ∈ g.edges ↔ drawn v t)
    (hcounter : ∀ m ∈ a.metrics, ∃ ts : NameSet, ts.size = m.count counter ∧
      ∀ t, drawn m.type t ↔ t ∈ ts) :
    a.Tabulates isRoot drawn counter where
  rows v t := by
    rw [hedges, ← hdrawn]
    apply (exists_row_iff hg (p := fun e => e.source = v ∧ e.target = t)).trans
    apply Iff.intro
    · intro h
      obtain ⟨e, he, rfl, rfl⟩ := h
      exact he
    · exact fun h => ⟨_, h, rfl, rfl⟩
  rows_ascending := by
    rw [hedges, map_edge_edgeRows hg]
    exact g.edges.ascending
  weight row hrow := by
    rw [hedges] at hrow
    rw [weight_of_mem_edgeRows hrow, ← hroots]
    exact ⟨fun h => if_pos h, fun h => if_neg h⟩
  nodes t := by
    rw [hnodes, hedges, map_type_nodeRows, mem_targets_iff]
    exact (exists_row_iff hg (p := fun e => e.target = t)).symm
  nodes_ascending := by
    rw [hnodes, map_type_nodeRows]
    exact g.ascending_targets
  connections node hnode := by
    rw [hnodes] at hnode
    obtain ⟨t, -, rfl⟩ := List.mem_map.1 hnode
    rw [hedges]
    exact (countP_target_eq_connectionCount hg t).symm
  leaving m hm := by
    obtain ⟨ts, hsize, hts⟩ := hcounter m hm
    rw [hedges, ← hsize]
    exact countP_source_eq_size hg fun t => (hdrawn m.type t).trans (hts t)

end Graph

/-! ## §2 What is drawn -/

/-- A walk of at most `d` references, of any length if `d` is minus one, leads from a root to the
    type. -/
def Refs.Near (refs : Refs) (isRoot : TypeName → Prop) (d : Int) (t : TypeName) : Prop :=
  ∃ r, isRoot r ∧ ∃ n : Nat, (d = -1 ∨ (n : Int) ≤ d) ∧ refs.ReachesIn r n t

namespace Context

variable {ctx : Context Unit} {bound : Bound} {r : TypeName} {e : Edge}

theorem draws_exploring_iff :
    (ctx.exploring bound r).Draws ctx e ↔
      (ctx.record r bound).adjacency.expands e.source = true ∧
        ((ctx.config.transitiveEdges = true ∧
          e.target ∈ reachable (ctx.record r bound).adjacency e.source) ∨
        ctx.refs.Leads e.source e.target) := by
  show (_ ∧ _ ∧ _) ∨ (_ ∧ _) ↔ _
  rw [and_or_left, and_left_comm]
  exact Iff.rfl

/-- Without transitive edges the direct references of the types within the bound are drawn. -/
theorem draws_exploring_iff_of_direct (hctx : ctx.Lawful)
    (hdirect : ctx.config.transitiveEdges = false) :
    (ctx.exploring bound r).Draws ctx e ↔
      ctx.refs.Leads e.source e.target ∧
        ∃ n, bound.admits n = true ∧ ctx.refs.ReachesIn r n e.source := by
  rw [draws_exploring_iff, (finished_record hctx r bound).expands_iff_exists_walk, hdirect]
  apply Iff.intro
  · intro h
    obtain ⟨⟨-, hwalk⟩, ⟨htransitive, -⟩ | hlead⟩ := h
    · cases htransitive
    · exact ⟨hlead, hwalk⟩
  · intro h
    obtain ⟨hlead, hwalk⟩ := h
    obtain ⟨rs, hrs, ht⟩ := hlead
    exact ⟨⟨⟨rs, hrs⟩, hwalk⟩, .inr ⟨rs, hrs, ht⟩⟩

/-- With transitive edges an unbounded exploration draws all walks between the types reached. -/
theorem draws_exploring_iff_of_transitive (hctx : ctx.Lawful)
    (htransitive : ctx.config.transitiveEdges = true) :
    (ctx.exploring .unbounded r).Draws ctx e ↔
      e.source ≠ e.target ∧ (∃ m, ctx.refs.ReachesIn r m e.source) ∧
        ∃ n, ctx.refs.ReachesIn e.source n e.target := by
  have hfinished := finished_record hctx r .unbounded
  rw [draws_exploring_iff, hfinished.expands_iff_exists_walk, htransitive]
  apply Iff.intro
  · intro h
    obtain ⟨⟨-, m, -, hm⟩, ⟨-, hreached⟩ | hlead⟩ := h
    · -- the walks on record are walks over the references of all types
      obtain ⟨hne, n, hn⟩ := mem_reachable_iff.1 hreached
      exact ⟨hne.symm, ⟨m, hm⟩, n + 1, (hfinished.reachesIn_adjacency_iff hm).1 hn⟩
    · exact ⟨(ne_of_leads hlead).symm, ⟨m, hm⟩, 1, Refs.ReachesIn.refl.tail hlead⟩
  · intro h
    obtain ⟨hne, ⟨m, hm⟩, hwalk⟩ := h
    obtain ⟨n, hn⟩ := (Refs.exists_reachesIn_iff hne.symm).1 hwalk
    have hrecorded := (hfinished.reachesIn_adjacency_iff hm).2 hn
    exact ⟨⟨hn.exists_refs_start, m, rfl, hm⟩,
      .inl ⟨rfl, mem_reachable_iff.2 ⟨hne.symm, n, hrecorded⟩⟩⟩

/-- With transitive edges unbounded explorations from all roots draw the walks between the types
    reached from them. -/
theorem exists_draws_iff_of_transitive (hctx : ctx.Lawful)
    (htransitive : ctx.config.transitiveEdges = true) {isRoot : TypeName → Prop}
    {v t : TypeName} :
    (∃ r, isRoot r ∧ (ctx.exploring .unbounded r).Draws ctx ⟨t, v⟩) ↔
      v ≠ t ∧ ctx.refs.Near isRoot (-1) v ∧ ∃ n, ctx.refs.ReachesIn v n t := by
  simp only [draws_exploring_iff_of_transitive hctx htransitive]
  apply Iff.intro
  · intro h
    obtain ⟨r, hr, hne, ⟨m, hm⟩, hwalk⟩ := h
    exact ⟨hne, ⟨r, hr, m, .inl rfl, hm⟩, hwalk⟩
  · intro h
    obtain ⟨hne, ⟨r, hr, m, -, hm⟩, hwalk⟩ := h
    exact ⟨r, hr, hne, ⟨m, hm⟩, hwalk⟩

/-- Without transitive edges explorations from all roots draw the direct references of the types
    near them. -/
theorem exists_draws_iff_of_direct (hctx : ctx.Lawful)
    (hdirect : ctx.config.transitiveEdges = false) {d : Int} (hb : Bound.ofInt? d = some bound)
    {isRoot : TypeName → Prop} {v t : TypeName} :
    (∃ r, isRoot r ∧ (ctx.exploring bound r).Draws ctx ⟨t, v⟩) ↔
      ctx.refs.Leads v t ∧ ctx.refs.Near isRoot d v := by
  simp only [draws_exploring_iff_of_direct hctx hdirect, Bound.admits_iff hb]
  apply Iff.intro
  · intro h
    obtain ⟨r, hr, hlead, hwalk⟩ := h
    exact ⟨hlead, r, hr, hwalk⟩
  · intro h
    obtain ⟨hlead, r, hr, hwalk⟩ := h
    exact ⟨r, hr, hlead, hwalk⟩

/-- Whatever is drawn leads from a type that can be described to a reference of some type. -/
theorem exists_leads_of_draws (hctx : ctx.Lawful) (he : (ctx.exploring bound r).Draws ctx e) :
    (∃ rs, ctx.refs e.source = some rs) ∧ ∃ u, ctx.refs.Leads u e.target := by
  have hfinished := finished_record hctx r bound
  obtain ⟨hexpands, hdrawn⟩ := draws_exploring_iff.1 he
  refine ⟨(hfinished.expands_iff_exists_walk.1 hexpands).1, ?_⟩
  rcases hdrawn with ⟨-, hreached⟩ | hlead
  · obtain ⟨-, n, hn⟩ := mem_reachable_iff.1 hreached
    obtain ⟨u, -, rs, hrs, ht⟩ := hn.exists_last
    obtain ⟨-, -, -, hknown⟩ := hfinished.refs_adjacency_iff.1 hrs
    exact ⟨u, rs, hknown, ht⟩
  · exact ⟨e.source, hlead⟩

/-- The indirect associations of a type count the types that unbounded walks lead to. -/
theorem Measured.exists_indirect (hctx : ctx.Lawful) {m : Metrics}
    (hm : ctx.Measured .unbounded m) :
    ∃ ts : NameSet, ts.size = m.count .indirectAssociations ∧
      ∀ t, t ∈ ts ↔ m.type ≠ t ∧ ∃ n, ctx.refs.ReachesIn m.type n t := by
  obtain ⟨-, -, -, hcount⟩ := hm
  refine ⟨_, hcount.symm, ?_⟩
  intro t
  rw [(finished_record hctx m.type .unbounded).mem_reachable_root_iff, ne_comm]
  apply and_congr_right
  intro hne
  rw [Refs.exists_reachesIn_iff hne.symm]
  simp [Bound.admits]

/-- The direct associations of a type count its direct references. -/
theorem Measured.exists_direct {m : Metrics} (hm : ctx.Measured bound m) :
    ∃ ts : NameSet, ts.size = m.count .directAssociations ∧
      ∀ t, t ∈ ts ↔ ctx.refs.Leads m.type t := by
  obtain ⟨rs, hrs, hcount, -⟩ := hm
  refine ⟨rs, hcount.symm, ?_⟩
  intro t
  apply Iff.intro
  · exact fun ht => ⟨rs, hrs, ht⟩
  · intro h
    obtain ⟨rs', hrs', ht⟩ := h
    cases hrs'.symm.trans hrs
    exact ht

end Context

/-! ## §3 Analyses over an index -/

namespace TypeIndex

variable {x : TypeIndex} {blind : List TypeName} {config : Config}

/-- One of the names, without the blanks around it, is that of a type of the index. -/
def Picks (x : TypeIndex) (names : List String) (t : TypeName) : Prop :=
  x.contains t = true ∧ ∃ n ∈ names, Text.strip n = t

theorem Named.picks_iff (hx : x.Named) {names : List String} {t : TypeName} :
    x.Picks names t ↔ t ∈ cleanNames names ∧ x.contains t = true := by
  rw [mem_cleanNames_iff]
  apply Iff.intro
  · exact fun h => ⟨⟨hx.ne_empty_of_contains h.1, h.2⟩, h.1⟩
  · exact fun h => ⟨h.2, h.1.2⟩

/-- What an analysis of a schema without empty names tells in a new session. With transitive edges
    and without a bound its rows are the walks between the types reached from its roots, and as many
    rows leave a root as it has indirect associations. Without transitive edges its rows are the
    direct references of the types near its roots, and as many rows leave a root as it has direct
    associations. -/
theorem analysis_tables {schema : Schema} (hschema : schema.Named) {extra : List TypeName}
    {x : TypeIndex} (hx : x = .ofSchema schema extra) (blind : List TypeName) (config : Config)
    (names : List String) {depth : Option Int} {d : Int}
    (hdepth : (x.context blind config).depthOr depth = d) (hd : -1 ≤ d) :
    ∃ a s', ((x.context blind config).analysis names depth).run Session.fresh = (.ok a, s') ∧
      (∀ r, r ∈ a.roots ↔ x.Picks names r ∧ x.Describes blind r) ∧
      (config.transitiveEdges = true → d = -1 →
        a.Tabulates (x.Picks names) (fun v t => v ≠ t ∧ x.Describes blind v ∧
          (x.context blind config).refs.Near (x.Picks names) (-1) v ∧
          ∃ n, (x.context blind config).refs.ReachesIn v n t) .indirectAssociations) ∧
      (config.transitiveEdges = false →
        a.Tabulates (x.Picks names) (fun v t => x.Describes blind v ∧
          (x.context blind config).refs.Leads v t ∧
          (x.context blind config).refs.Near (x.Picks names) d v) .directAssociations) := by
  have hnamed : x.Named := hx ▸ named_ofSchema hschema extra
  have hctx := lawful_context x blind config
  obtain ⟨b, hb⟩ := Bound.exists_ofInt?_eq_some hd
  obtain ⟨a, s', hrun, hnodes, hedges, hroots, hdrawn, hanalysed, hmeasured⟩ :=
    Context.exists_run_analysis hctx (knows_context x blind config) Context.coherent_fresh names
      (hdepth ▸ hb)
  simp only [← hnamed.picks_iff, exists_refs_context_iff] at hroots hdrawn hanalysed
  -- a new session has neither edges nor roots
  have hroots' : ∀ t, t ∈ s'.graph.roots ↔ x.Picks names t := fun t =>
    (hroots t).trans (or_iff_right (OrdSet.not_mem_empty t))
  have hdrawn' : ∀ e, e ∈ s'.graph.edges ↔
      ∃ t, x.Picks names t ∧ ((x.context blind config).exploring b t).Draws _ e := fun e =>
    (hdrawn e).trans (or_iff_right (OrdSet.not_mem_empty e))
  have hgraph : s'.graph.Named := by
    intro e he
    obtain ⟨r, -, hdraws⟩ := (hdrawn' e).1 he
    obtain ⟨hsource, u, hlead⟩ := Context.exists_leads_of_draws hctx hdraws
    exact ⟨hnamed.ne_empty_of_contains (exists_refs_context_iff.1 hsource).1,
      hnamed.ne_empty_of_leads hlead⟩
  -- a root is near itself, whatever the depth
  have hroot : ∀ m ∈ a.metrics, x.Describes blind m.type ∧
      (x.context blind config).refs.Near (x.Picks names) d m.type := by
    intro m hm
    obtain ⟨hpicked, hdescribed⟩ := (hanalysed m.type).1 (List.mem_map_of_mem hm)
    exact ⟨hdescribed, m.type, hpicked, 0, by omega, .refl⟩
  refine ⟨a, s', hrun, hanalysed, ?transitive, ?direct⟩
  case transitive =>
    intro htransitive hunbounded
    subst hunbounded
    cases hb
    apply hgraph.tabulates hnodes hedges hroots'
    · intro v t
      rw [hdrawn', Context.exists_draws_iff_of_transitive hctx htransitive]
      apply and_congr_right
      intro hne
      -- a walk to another type sets out over the references of its start
      apply (and_iff_right_of_imp _).symm
      intro h
      obtain ⟨n, hn⟩ := (Refs.exists_reachesIn_iff hne.symm).1 h.2
      exact exists_refs_context_iff.1 hn.exists_refs_start
    · intro m hm
      obtain ⟨ts, hsize, hts⟩ := (hmeasured m hm).exists_indirect hctx
      exact ⟨ts, hsize, fun t => by simp [hts, hroot m hm]⟩
  case direct =>
    intro hdirect
    apply hgraph.tabulates hnodes hedges hroots'
    · intro v t
      rw [hdrawn', Context.exists_draws_iff_of_direct hctx hdirect hb]
      apply (and_iff_right_of_imp _).symm
      intro h
      obtain ⟨⟨rs, hrs, -⟩, -⟩ := h
      exact exists_refs_context_iff.1 ⟨rs, hrs⟩
    · intro m hm
      obtain ⟨ts, hsize, hts⟩ := (hmeasured m hm).exists_direct
      exact ⟨ts, hsize, fun t => by simp [hts, hroot m hm]⟩

/-- An analysis of `A`, and of a name that no type has. -/
theorem analysis_tables_ring :
    ∃ a s', (((ofSchema { types := ring.types } []).context [] { transitiveEdges := true }).analysis
        [" A ", "Z"] (some (-1))).run Session.fresh = (.ok a, s') ∧
      "A" ∈ a.roots ∧ (∃ row ∈ a.edges, row.source = "A" ∧ row.target = "C") ∧
      ∀ row ∈ a.edges, row.source = "A" → row.weight = 3 := by
  have hnamed : Schema.Named { types := ring.types } := by
    show ∀ d ∈ ring.types, d.name ≠ "" ∧ "" ∉ d.nested
    decide
  have hA : (ofSchema { types := ring.types } []).Picks [" A ", "Z"] "A" :=
    ⟨by decide +kernel, " A ", by decide, by decide +kernel⟩
  have hdescribes : (ofSchema { types := ring.types } []).Describes [] "A" :=
    ⟨by decide +kernel, by decide⟩
  have hAB : ((ofSchema { types := ring.types } []).context []
      { transitiveEdges := true }).refs.Leads "A" "B" := ⟨_, rfl, by decide +kernel⟩
  have hBC : ((ofSchema { types := ring.types } []).context []
      { transitiveEdges := true }).refs.Leads "B" "C" := ⟨_, rfl, by decide +kernel⟩
  have hdepth : ((ofSchema { types := ring.types } []).context []
      { transitiveEdges := true }).depthOr (some (-1)) = -1 := rfl
  obtain ⟨a, s', hrun, hroots, htransitive, -⟩ := analysis_tables hnamed rfl []
    { transitiveEdges := true } [" A ", "Z"] hdepth (by decide)
  have htables := htransitive rfl rfl
  refine ⟨a, s', hrun, (hroots "A").2 ⟨hA, hdescribes⟩, ?_, ?_⟩
  · apply (htables.rows "A" "C").2
    exact ⟨by decide, hdescribes, ⟨"A", hA, 0, .inl rfl, .refl⟩, 2,
      (Refs.ReachesIn.refl.tail hAB).tail hBC⟩
  · intro row hrow hsource
    exact (htables.weight row hrow).1 (hsource ▸ hA)

end TypeIndex

end TypeAtlas
