import TypeAtlas.Proofs.Graph.Readings
import TypeAtlas.Step

/-!
# Histories of the dependency graph

After any steps, the graph reads as two sets: the edges that steps recorded, those from a type to
itself apart, and the roots that steps marked. So neither the order of the steps nor their
repetition can be read off it.

Main statements: `Graph.readsAs_afterAll` and `Graph.afterAll_eq_of_same`.
-/

namespace TypeAtlas

/-! ## §1 What steps record -/

namespace GraphStep

/-- The step asks for the edge to be recorded. -/
def Records : GraphStep → Edge → Prop
  | .addEdge referenced referrer, e => e = ⟨referenced, referrer⟩
  | .addAll referenced referrer, e => e.target ∈ referenced ∧ e.source = referrer
  | _, _ => False

/-- The step marks the type as a root. -/
def Marks : GraphStep → TypeName → Prop
  | .addRoot t, u => u = t
  | _, _ => False

/-- Whether the step is one that records edges or marks a root. -/
def writes : GraphStep → Bool
  | .addEdge _ _ => true
  | .addAll _ _ => true
  | .addRoot _ => true
  | _ => false

end GraphStep

namespace Graph

variable {g g' : Graph} {steps : List GraphStep}

theorem mem_edges_after {step : GraphStep} {e : Edge} :
    e ∈ (g.after step).edges ↔ (step.Records e ∧ e.target ≠ e.source) ∨ e ∈ g.edges := by
  cases step with
  | addEdge a b =>
    apply mem_edges_addEdge.trans
    apply or_congr_left
    apply Iff.intro
    · rintro ⟨hne, rfl⟩
      exact ⟨rfl, hne⟩
    · rintro ⟨rfl, hne⟩
      exact ⟨hne, rfl⟩
  | addAll ts b =>
    apply mem_edges_addAll.trans
    apply or_congr_left
    apply Iff.intro
    · rintro ⟨hmem, hne, rfl⟩
      exact ⟨⟨hmem, rfl⟩, hne⟩
    · rintro ⟨⟨hmem, rfl⟩, hne⟩
      exact ⟨hmem, hne, rfl⟩
  | _ => exact (or_iff_right fun h => h.1).symm

theorem mem_roots_after {step : GraphStep} {t : TypeName} :
    t ∈ (g.after step).roots ↔ step.Marks t ∨ t ∈ g.roots := by
  cases step with
  | addEdge a b =>
    show t ∈ (g.addEdge a b).roots ↔ False ∨ _
    rw [roots_addEdge, false_or]
  | addRoot u => exact OrdSet.mem_insert
  | _ => exact (or_iff_right fun h => h).symm

/-! ## §2 Sequences of steps -/

/-- The graph after a sequence of steps. -/
def afterAll (g : Graph) (steps : List GraphStep) : Graph := steps.foldl after g

theorem mem_edges_afterAll {e : Edge} :
    e ∈ (g.afterAll steps).edges ↔
      ((∃ step ∈ steps, step.Records e) ∧ e.target ≠ e.source) ∨ e ∈ g.edges := by
  induction steps generalizing g with
  | nil => simp [afterAll]
  | cons step steps ih =>
    -- recorded by a later step, by the first one, or before all of them
    have hrest : e ∈ (g.afterAll (step :: steps)).edges ↔
        ((∃ later ∈ steps, later.Records e) ∧ e.target ≠ e.source) ∨
          e ∈ (g.after step).edges := ih
    rw [hrest, mem_edges_after, ← or_assoc, ← or_and_right]
    simp [or_comm]

theorem mem_roots_afterAll {t : TypeName} :
    t ∈ (g.afterAll steps).roots ↔ (∃ step ∈ steps, step.Marks t) ∨ t ∈ g.roots := by
  induction steps generalizing g with
  | nil => simp [afterAll]
  | cons step steps ih =>
    have hrest : t ∈ (g.afterAll (step :: steps)).roots ↔
        (∃ later ∈ steps, later.Marks t) ∨ t ∈ (g.after step).roots := ih
    rw [hrest, mem_roots_after, ← or_assoc]
    simp [or_comm]

theorem ext_of_mem (hedges : ∀ e, e ∈ g.edges ↔ e ∈ g'.edges)
    (hroots : ∀ t, t ∈ g.roots ↔ t ∈ g'.roots) : g = g' := by
  obtain ⟨edges, roots⟩ := g
  obtain ⟨edges', roots'⟩ := g'
  congr 1
  · exact OrdSet.ext hedges
  · exact OrdSet.ext hroots

/-! ## §3 Readings -/

/-- The graph reads as the given edges, those from a type to itself apart, and the given roots. -/
structure ReadsAs (g : Graph) (recorded : Edge → Prop) (marked : TypeName → Prop) : Prop where
  /-- The referrers of a type are the other types recorded to reference it, each once. -/
  referrers : ∀ k v, v ∈ g.referrers k ↔ recorded ⟨k, v⟩ ∧ v ≠ k
  referrers_once : ∀ k, (g.referrers k).Nodup
  /-- The types in the graph are those that have referrers. -/
  contains : ∀ k, g.contains k = true ↔ g.referrers k ≠ []
  connectionCount : ∀ k, g.connectionCount k = (g.referrers k).length
  roots : ∀ t, t ∈ g.roots ↔ marked t
  isRoot : ∀ t, g.isRoot t = true ↔ marked t
  /-- There is a node for each type in the graph, with the number of its referrers, and for
      nothing else. -/
  nodes : ∀ row, row ∈ g.nodeRows ↔
    g.contains row.type = true ∧ row.connections = g.connectionCount row.type
  nodes_ascending : Ascending (g.nodeRows.map NodeRow.type)
  nodes_connected : ∀ row ∈ g.nodeRows, 1 ≤ row.connections
  size : g.size = g.nodeRows.length
  /-- There is a row for each edge with names at both ends, and for nothing else. It weighs three
      if it leaves a root, and one if not. -/
  edges : ∀ row, row ∈ g.edgeRows ↔
    recorded ⟨row.target, row.source⟩ ∧ row.source ≠ row.target ∧
      row.source ≠ "" ∧ row.target ≠ "" ∧
      (marked row.source → row.weight = 3) ∧ (¬ marked row.source → row.weight = 1)
  /-- The rows are strictly ascending by target and then by source. -/
  edges_ascending : Ascending (g.edgeRows.map EdgeRow.edge)

/-- What a graph reads as, if its edges and its roots are known. -/
theorem readsAs {recorded : Edge → Prop} {marked : TypeName → Prop}
    (hedges : ∀ e, e ∈ g.edges ↔ recorded e ∧ e.target ≠ e.source)
    (hroots : ∀ t, t ∈ g.roots ↔ marked t) : g.ReadsAs recorded marked where
  referrers k v := by
    rw [mem_referrers_iff, hedges, ne_comm]
  referrers_once k := by
    apply (g.ascending_referrers k).imp
    -- what comes before something is not the same
    intro v u hlt heq
    subst heq
    simp at hlt
  contains k := contains_iff_referrers_ne_nil
  connectionCount k := rfl
  roots := hroots
  isRoot t := decide_eq_true_iff.trans (hroots t)
  nodes row := mem_nodeRows_iff
  nodes_ascending := by
    rw [map_type_nodeRows]
    exact g.ascending_targets
  nodes_connected row hrow := by
    obtain ⟨hcontains, hcount⟩ := mem_nodeRows_iff.1 hrow
    rw [hcount]
    exact List.length_pos_iff.2 (contains_iff_referrers_ne_nil.1 hcontains)
  size := (List.length_map _).symm
  edges row := by
    have hweight : (row.weight = if row.source ∈ g.roots then rootEdgeWeight else plainEdgeWeight) ↔
        (marked row.source → row.weight = 3) ∧ (¬ marked row.source → row.weight = 1) := by
      rw [← hroots]
      split
      case isTrue h => simp [h, rootEdgeWeight]
      case isFalse h => simp [h, plainEdgeWeight]
    rw [mem_edgeRows_iff, hedges, hweight, ne_comm]
    simp only [and_assoc]
    exact Iff.rfl
  edges_ascending := g.ascending_edgeRows

/-- A new graph after any steps has the edges that they recorded, those from a type to itself
    apart. -/
theorem mem_edges_afterAll_empty {e : Edge} :
    e ∈ (empty.afterAll steps).edges ↔ (∃ step ∈ steps, step.Records e) ∧ e.target ≠ e.source :=
  mem_edges_afterAll.trans (or_iff_left (OrdSet.not_mem_empty e))

theorem mem_roots_afterAll_empty {t : TypeName} :
    t ∈ (empty.afterAll steps).roots ↔ ∃ step ∈ steps, step.Marks t :=
  mem_roots_afterAll.trans (or_iff_left (OrdSet.not_mem_empty t))

/-- After any steps on a new graph, it reads as the edges recorded and the roots marked by them,
    wherever in the sequence each of them came. -/
theorem readsAs_afterAll (steps : List GraphStep) : (empty.afterAll steps).ReadsAs
    (fun e => ∃ step ∈ steps, step.Records e) fun t => ∃ step ∈ steps, step.Marks t :=
  readsAs (fun _ => mem_edges_afterAll_empty) fun _ => mem_roots_afterAll_empty

/-- Steps that record the same edges and mark the same roots make the same graph. -/
theorem afterAll_eq_of_same {steps' : List GraphStep}
    (hrecorded : ∀ e : Edge, e.target ≠ e.source →
      ((∃ step ∈ steps, step.Records e) ↔ ∃ step ∈ steps', step.Records e))
    (hmarked : ∀ t, (∃ step ∈ steps, step.Marks t) ↔ ∃ step ∈ steps', step.Marks t) :
    empty.afterAll steps = empty.afterAll steps' := by
  apply ext_of_mem
  · intro e
    rw [mem_edges_afterAll_empty, mem_edges_afterAll_empty]
    exact and_congr_left fun hne => hrecorded e hne
  · intro t
    rw [mem_roots_afterAll_empty, mem_roots_afterAll_empty, hmarked]

end Graph

end TypeAtlas
