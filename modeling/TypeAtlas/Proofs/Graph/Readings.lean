import TypeAtlas.Graph

/-!
# Readings of the dependency graph

What the readings of the graph say about its edges. The edges are kept in order, so the types that
are referenced and their referrers come in order as well, and the table of edges is the set of edges
written out, less those that lack a name.

Main statements: `Graph.mem_referrers_iff`, `Graph.mem_nodeRows_iff`, `Graph.mem_edgeRows_iff`,
`Graph.ascending_targets`, `Graph.map_edge_edgeRows` and `Graph.countP_source_eq_size`.
-/

namespace TypeAtlas

namespace Graph

variable {g : Graph}

/-! ## §1 Referrers -/

/-- The referrers of a type are the sources of the edges into it. -/
theorem mem_referrers_iff {t v : TypeName} : v ∈ g.referrers t ↔ (⟨t, v⟩ : Edge) ∈ g.edges := by
  unfold referrers edgesInto
  simp only [List.mem_map, List.mem_filter, OrdSet.mem_toList, beq_iff_eq]
  apply Iff.intro
  · intro h
    obtain ⟨e, ⟨he, rfl⟩, rfl⟩ := h
    exact he
  · intro h
    exact ⟨⟨t, v⟩, ⟨h, rfl⟩, rfl⟩

/-- The referrers of a type come in order, each once. -/
theorem ascending_referrers (g : Graph) (t : TypeName) : Ascending (g.referrers t) := by
  apply List.pairwise_map.2
  apply (g.edges.ascending.filter _).imp_of_mem
  intro e f he hf hlt
  have hsame : e.target = f.target := by
    rw [beq_iff_eq.1 (List.mem_filter.1 he).2, beq_iff_eq.1 (List.mem_filter.1 hf).2]
  -- the targets are the same, so the sources make the difference
  rw [Edge.compare_eq, hsame] at hlt
  simpa using hlt

theorem contains_iff {t : TypeName} : g.contains t = true ↔ ∃ v, (⟨t, v⟩ : Edge) ∈ g.edges := by
  unfold contains
  simp only [List.any_eq_true, OrdSet.mem_toList, beq_iff_eq]
  apply Iff.intro
  · intro h
    obtain ⟨e, he, rfl⟩ := h
    exact ⟨e.source, he⟩
  · intro h
    obtain ⟨v, hv⟩ := h
    exact ⟨⟨t, v⟩, hv, rfl⟩

/-- The types in the graph are those that have referrers. -/
theorem contains_iff_referrers_ne_nil {t : TypeName} :
    g.contains t = true ↔ g.referrers t ≠ [] := by
  rw [contains_iff, ← List.length_pos_iff, List.length_pos_iff_exists_mem]
  exact exists_congr fun v => mem_referrers_iff.symm

/-! ## §2 Referenced types -/

theorem mem_dedupRuns {ts : List TypeName} {t : TypeName} :
    t ∈ targets.dedupRuns ts ↔ t ∈ ts := by
  induction ts using targets.dedupRuns.induct with
  | case1 => rfl
  | case2 a => rfl
  | case3 a rest ih =>
    -- the first of two equal elements is left out
    rw [targets.dedupRuns, if_pos rfl, ih]
    simp
  | case4 a b rest hne ih =>
    rw [targets.dedupRuns, if_neg hne, List.mem_cons, ih, List.mem_cons (b := a)]

/-- In a list in order equal elements stand together, so those that are kept are distinct. -/
theorem ascending_dedupRuns {ts : List TypeName}
    (hts : ts.Pairwise fun a b => (compare a b).isLE = true) :
    Ascending (targets.dedupRuns ts) := by
  induction ts using targets.dedupRuns.induct with
  | case1 => exact List.Pairwise.nil
  | case2 a => exact List.pairwise_singleton _ a
  | case3 a rest ih =>
    rw [targets.dedupRuns, if_pos rfl]
    exact ih hts.of_cons
  | case4 a b rest hne ih =>
    rw [targets.dedupRuns, if_neg hne]
    refine List.pairwise_cons.2 ⟨?_, ih hts.of_cons⟩
    intro c hc
    -- `a` comes before `b`, and nothing after `b` comes before it
    have hab : compare a b = .lt := by
      have hle : (compare a b).isLE = true := List.rel_of_pairwise_cons hts List.mem_cons_self
      have hneq : compare a b ≠ .eq := fun heq => hne (Std.LawfulEqCmp.eq_of_compare heq)
      cases hcmp : compare a b with
      | lt => rfl
      | eq => exact absurd hcmp hneq
      | gt => simp [hcmp] at hle
    rcases List.mem_cons.1 (mem_dedupRuns.1 hc) with rfl | hc
    · exact hab
    · exact Std.TransCmp.lt_of_lt_of_isLE hab (List.rel_of_pairwise_cons hts.of_cons hc)

/-- The types referenced are the targets of edges. -/
theorem mem_targets_iff {t : TypeName} : t ∈ g.targets ↔ ∃ e ∈ g.edges, e.target = t := by
  unfold targets
  rw [mem_dedupRuns, List.mem_map]
  rfl

/-- The types referenced come in order, each once. -/
theorem ascending_targets (g : Graph) : Ascending g.targets := by
  apply ascending_dedupRuns
  apply List.pairwise_map.2
  apply g.edges.ascending.imp
  intro e f hlt
  rw [Edge.compare_eq, Ordering.then_eq_lt] at hlt
  rcases hlt with hlt | ⟨heq, -⟩
  · rw [hlt]
    rfl
  · rw [heq]
    rfl

theorem contains_iff_mem_targets {t : TypeName} : g.contains t = true ↔ t ∈ g.targets := by
  rw [mem_targets_iff, contains_iff]
  apply Iff.intro
  · intro h
    obtain ⟨v, hv⟩ := h
    exact ⟨⟨t, v⟩, hv, rfl⟩
  · intro h
    obtain ⟨e, he, rfl⟩ := h
    exact ⟨e.source, he⟩

theorem map_type_nodeRows (g : Graph) : g.nodeRows.map NodeRow.type = g.targets := by
  simp [nodeRows, Function.comp_def]

/-- There is a node for each type in the graph, with the number of its referrers. -/
theorem mem_nodeRows_iff {row : NodeRow} :
    row ∈ g.nodeRows ↔
      g.contains row.type = true ∧ row.connections = g.connectionCount row.type := by
  obtain ⟨t, n⟩ := row
  rw [contains_iff_mem_targets]
  unfold nodeRows
  simp only [List.mem_map, NodeRow.mk.injEq]
  apply Iff.intro
  · intro h
    obtain ⟨u, hu, rfl, rfl⟩ := h
    exact ⟨hu, rfl⟩
  · intro h
    obtain ⟨ht, rfl⟩ := h
    exact ⟨t, ht, rfl, rfl⟩

/-! ## §3 The table of edges -/

/-- The edge that a row is about. -/
def EdgeRow.edge (row : EdgeRow) : Edge := ⟨row.target, row.source⟩

/-- The weight of a row tells whether its source is a root. -/
theorem weight_of_mem_edgeRows {row : EdgeRow} (hrow : row ∈ g.edgeRows) :
    row.weight = if row.source ∈ g.roots then rootEdgeWeight else plainEdgeWeight := by
  obtain ⟨e, -, rfl⟩ := List.mem_map.1 hrow
  show (if g.isRoot e.source = true then _ else _) = _
  simp only [isRoot, decide_eq_true_eq]
  rfl

/-- The table of edges has a row for each edge that lacks no name, in order. -/
theorem map_edge_edgeRows_eq_filter (g : Graph) :
    g.edgeRows.map EdgeRow.edge =
      g.edges.toList.filter fun e => e.source != "" && e.target != "" := by
  unfold edgeRows
  rw [List.map_map]
  exact List.map_id _

theorem ascending_edgeRows (g : Graph) : Ascending (g.edgeRows.map EdgeRow.edge) := by
  rw [map_edge_edgeRows_eq_filter]
  exact g.edges.ascending.filter _

/-- The rows are those of the edges that lack no name, each with the weight that its source has. -/
theorem mem_edgeRows_iff {row : EdgeRow} :
    row ∈ g.edgeRows ↔
      (row.edge ∈ g.edges ∧ row.source ≠ "" ∧ row.target ≠ "") ∧
        row.weight = if row.source ∈ g.roots then rootEdgeWeight else plainEdgeWeight := by
  have hedge : (∃ row' ∈ g.edgeRows, row'.edge = row.edge) ↔
      row.edge ∈ g.edges ∧ row.source ≠ "" ∧ row.target ≠ "" := by
    rw [← List.mem_map, map_edge_edgeRows_eq_filter, List.mem_filter]
    simp [EdgeRow.edge]
  rw [← hedge]
  apply Iff.intro
  · exact fun hrow => ⟨⟨row, hrow, rfl⟩, weight_of_mem_edgeRows hrow⟩
  · intro h
    obtain ⟨⟨row', hrow', hsame⟩, hweight⟩ := h
    have hweight' := weight_of_mem_edgeRows hrow'
    -- an edge has one row, since the weight hangs on its source alone
    obtain ⟨v, t, n⟩ := row
    obtain ⟨v', t', n'⟩ := row'
    obtain ⟨rfl, rfl⟩ := Edge.mk.inj hsame
    cases hweight.trans hweight'.symm
    exact hrow'

/-- No edge of the graph lacks a name at an end. -/
def Named (g : Graph) : Prop := ∀ e ∈ g.edges, e.source ≠ "" ∧ e.target ≠ ""

/-- If no edge lacks a name, the table of edges has a row for each of them, in order. -/
theorem map_edge_edgeRows (hg : g.Named) : g.edgeRows.map EdgeRow.edge = g.edges.toList := by
  rw [map_edge_edgeRows_eq_filter]
  apply List.filter_eq_self.2
  intro e he
  have hnamed := hg e he
  simp [hnamed.1, hnamed.2]

theorem exists_row_iff (hg : g.Named) {p : Edge → Prop} :
    (∃ row ∈ g.edgeRows, p row.edge) ↔ ∃ e ∈ g.edges, p e := by
  have hmem : ∀ e, e ∈ g.edges ↔ ∃ row ∈ g.edgeRows, row.edge = e := by
    intro e
    rw [← OrdSet.mem_toList, ← map_edge_edgeRows hg, List.mem_map]
  apply Iff.intro
  · intro h
    obtain ⟨row, hrow, hp⟩ := h
    exact ⟨row.edge, (hmem _).2 ⟨row, hrow, rfl⟩, hp⟩
  · intro h
    obtain ⟨e, he, hp⟩ := h
    obtain ⟨row, hrow, rfl⟩ := (hmem e).1 he
    exact ⟨row, hrow, hp⟩

/-- A count of rows is one of edges. -/
theorem countP_edgeRows (hg : g.Named) (p : Edge → Bool) :
    (g.edgeRows.countP fun row => p row.edge) = (g.edges.toList.filter p).length := by
  rw [← map_edge_edgeRows hg, ← List.countP_eq_length_filter, List.countP_map]
  rfl

/-- The rows that lead to a type are as many as its connections. -/
theorem countP_target_eq_connectionCount (hg : g.Named) (t : TypeName) :
    (g.edgeRows.countP fun row => row.target == t) = g.connectionCount t := by
  rw [connectionCount, referrers, List.length_map]
  exact countP_edgeRows hg fun e => e.target == t

/-- The edges that leave a type come in the order of their targets. -/
theorem ascending_map_target (g : Graph) (v : TypeName) :
    Ascending ((g.edges.toList.filter fun e => e.source == v).map Edge.target) := by
  apply List.pairwise_map.2
  apply (g.edges.ascending.filter _).imp_of_mem
  intro e f he hf hlt
  have hsame : e.source = f.source := by
    rw [beq_iff_eq.1 (List.mem_filter.1 he).2, beq_iff_eq.1 (List.mem_filter.1 hf).2]
  -- the sources are the same, so the targets make the difference
  rw [Edge.compare_eq, hsame] at hlt
  simpa using hlt

/-- The rows that leave a type are as many as the targets of its edges. -/
theorem countP_source_eq_size (hg : g.Named) {v : TypeName} {ts : NameSet}
    (hts : ∀ t, (⟨t, v⟩ : Edge) ∈ g.edges ↔ t ∈ ts) :
    (g.edgeRows.countP fun row => row.source == v) = ts.size := by
  have htargets : (g.edges.toList.filter fun e => e.source == v).map Edge.target = ts.toList := by
    apply (g.ascending_map_target v).eq_of_mem_iff ts.ascending
    intro t
    simp only [List.mem_map, List.mem_filter, OrdSet.mem_toList, beq_iff_eq]
    rw [← hts]
    apply Iff.intro
    · intro h
      obtain ⟨e, ⟨he, rfl⟩, rfl⟩ := h
      exact he
    · intro h
      exact ⟨⟨t, v⟩, ⟨h, rfl⟩, rfl⟩
  rw [OrdSet.size, ← htargets, List.length_map]
  exact countP_edgeRows hg fun e => e.source == v

end Graph

end TypeAtlas
