import TypeAtlas.Graph.Store
import TypeAtlas.Proofs.Graph.History

/-!
# The store of the dependency graph is the graph

A store stands for the graph with an edge from each member of a set to the type under which the set
stands. As long as no set is empty and none holds the type under which it stands, a step is answered
by the store as by that graph, and it leads to a store that stands for the graph after the step and
is as sound. Writers keep sets from being empty since they add to what they fetch, and readers fetch
nothing.

Main statements: `GraphStore.step_refines`, `GraphStore.refines_afterAll` and
`GraphStore.readings_after_history`.
-/

namespace TypeAtlas

/-! ## §1 Dictionaries of sets -/

namespace SetDict

variable {d : SetDict} {n k : TypeName} {s : NameSet}

@[simp] theorem get?_empty : empty.get? n = none := rfl

@[simp] theorem get?_put : (d.put n s).get? k = if n = k then some s else d.get? k :=
  Entries.get?_put

/-- What a writer fetches is the set of the name, or the empty set that the name gets by that. -/
theorem run_fetch : (fetch n).run d =
    ((d.get? n).getD ∅, if (d.get? n).isSome then d else d.put n ∅) := by
  simp only [fetch, StateT.run_bind, StateT.run_get, pure_bind]
  cases d.get? n <;> rfl

/-- Fetching is not reading: a name that had no set has one afterwards. -/
theorem get?_fetch : (((fetch n).run d).2).get? k =
    if n = k then some ((d.get? n).getD ∅) else d.get? k := by
  rw [run_fetch]
  cases hn : d.get? n with
  | none => simp
  | some s =>
    by_cases hk : n = k
    · subst hk
      simpa using hn
    · simp [hk]

example : ((fetch "A").run empty).2.size = 1 := by decide

/-- A member that is added goes into the set of its name, and no other set is touched. -/
theorem get?_add {member : TypeName} : (((add n member).run d).2).get? k =
    if n = k then some (((d.get? n).getD ∅).insert member) else d.get? k := by
  show ((((fetch n).run d).2).put n ((((fetch n).run d).1).insert member)).get? k = _
  rw [get?_put, get?_fetch, run_fetch]
  split <;> rfl

/-! ## §2 Names in order -/

theorem get?_toMap : d.toMap.get? n = d.get? n := by
  have hfold : ∀ es : Entries NameSet,
      (es.foldr (fun e m => m.insert e.1 e.2) (∅ : OrdMap TypeName NameSet)).get? n =
        es.get? n := by
    intro es
    induction es with
    | nil => rfl
    | cons e rest ih =>
      rw [List.foldr_cons, OrdMap.get?_insert, ih, Entries.get?]
      simp only [eq_comm]
  exact hfold d.entries

theorem ascending_sorted (d : SetDict) : Ascending (d.sorted.map Prod.fst) :=
  List.pairwise_map.2 d.toMap.ascending

/-- Sorting keeps the names and their sets. -/
theorem mem_sorted_iff : (n, s) ∈ d.sorted ↔ d.get? n = some s := by
  rw [← get?_toMap]
  exact d.toMap.mem_entries_iff

/-- Sorting loses no name. -/
theorem length_sorted (d : SetDict) : d.sorted.length = d.size := by
  have hsorted : (d.sorted.map Prod.fst).Nodup := by
    apply d.ascending_sorted.imp
    intro a b hlt heq
    subst heq
    simp at hlt
  have hperm : (d.sorted.map Prod.fst).Perm (d.entries.map Prod.fst) := by
    apply (List.perm_ext_iff_of_nodup hsorted d.nodup).2
    intro n
    have hname : n ∈ d.entries.map Prod.fst ↔ (d.get? n).isSome = true := Entries.mem_names_iff
    rw [hname, Option.isSome_iff_exists, List.mem_map]
    apply Iff.intro
    · rintro ⟨⟨k, s⟩, hmem, rfl⟩
      exact ⟨s, mem_sorted_iff.1 hmem⟩
    · rintro ⟨s, hs⟩
      exact ⟨(n, s), mem_sorted_iff.2 hs, rfl⟩
  rw [← List.length_map Prod.fst, hperm.length_eq, List.length_map]
  rfl

end SetDict

/-! ## §3 The graph that a store stands for -/

namespace GraphStore

variable {st : GraphStore}

/-- The edges that a store holds, set by set and member by member within a set. -/
def pairs (st : GraphStore) : List Edge :=
  st.referrers.sorted.flatMap fun e => e.2.toList.map fun v => ⟨e.1, v⟩

theorem mem_pairs_iff {e : Edge} :
    e ∈ st.pairs ↔ ∃ s, st.referrers.get? e.target = some s ∧ e.source ∈ s := by
  unfold pairs
  rw [List.mem_flatMap]
  apply Iff.intro
  · rintro ⟨⟨t, s⟩, hmem, he⟩
    obtain ⟨v, hv, rfl⟩ := List.mem_map.1 he
    exact ⟨s, SetDict.mem_sorted_iff.1 hmem, hv⟩
  · rintro ⟨s, hs, hv⟩
    exact ⟨(e.target, s), SetDict.mem_sorted_iff.2 hs, List.mem_map.2 ⟨e.source, hv, rfl⟩⟩

/-- The edges come in order: the names are sorted, and so is each of the sets. -/
theorem ascending_pairs (st : GraphStore) : Ascending st.pairs := by
  apply List.pairwise_flatMap.2
  apply And.intro
  · rintro ⟨t, s⟩ -
    apply List.pairwise_map.2
    apply s.ascending.imp
    intro v u hlt
    simpa [Edge.compare_eq] using hlt
  · apply st.referrers.toMap.ascending.imp
    rintro ⟨t, s⟩ ⟨t', s'⟩ hlt e he e' he'
    obtain ⟨v, -, rfl⟩ := List.mem_map.1 he
    obtain ⟨v', -, rfl⟩ := List.mem_map.1 he'
    rw [Edge.compare_eq, hlt]
    rfl

/-- The graph that a store stands for. -/
def graph (st : GraphStore) : Graph where
  edges := ⟨st.pairs, st.ascending_pairs⟩
  roots := st.roots

theorem mem_edges_graph {e : Edge} :
    e ∈ st.graph.edges ↔ ∃ s, st.referrers.get? e.target = some s ∧ e.source ∈ s := mem_pairs_iff

/-- The sets say no more than the edges: none is empty, and none holds the type under which it
    stands. -/
structure Sound (st : GraphStore) : Prop where
  inhabited : ∀ k s, st.referrers.get? k = some s → ∃ v, v ∈ s
  elsewhere : ∀ k s, st.referrers.get? k = some s → k ∉ s

theorem sound_empty : empty.Sound := ⟨nofun, nofun⟩

/-! ## §4 Writers -/

theorem get?_addEdge {a b k : TypeName} (hab : a ≠ b) :
    ((addEdge a b).run st).2.referrers.get? k =
      if a = k then some (((st.referrers.get? a).getD ∅).insert b)
      else st.referrers.get? k := by
  rw [addEdge, if_neg hab]
  exact SetDict.get?_add

@[simp] theorem roots_addEdge {a b : TypeName} : ((addEdge a b).run st).2.roots = st.roots := by
  rw [addEdge]
  split <;> rfl

/-- What stands under the target of a new edge is not empty, since its source has just come in. -/
theorem Sound.addEdge (h : st.Sound) (a b : TypeName) : ((addEdge a b).run st).2.Sound := by
  by_cases hab : a = b
  · rw [GraphStore.addEdge, if_pos hab]
    exact h
  · refine ⟨fun k s hs => ?_, fun k s hs => ?_⟩ <;> rw [get?_addEdge hab] at hs <;> split at hs
    · cases hs
      exact ⟨b, OrdSet.mem_insert.2 (.inl rfl)⟩
    · exact h.inhabited k s hs
    · next hk =>
      cases hs
      subst hk
      rw [OrdSet.mem_insert, not_or]
      refine ⟨hab, ?_⟩
      cases hget : st.referrers.get? a with
      | none => exact OrdSet.not_mem_empty a
      | some s => exact h.elsewhere a s hget
    · exact h.elsewhere k s hs

theorem graph_addEdge (st : GraphStore) (a b : TypeName) :
    ((addEdge a b).run st).2.graph = st.graph.addEdge a b := by
  by_cases hab : a = b
  · rw [addEdge, if_pos hab, Graph.addEdge, if_pos hab]
    rfl
  · apply Graph.ext_of_mem
    · intro e
      obtain ⟨k, v⟩ := e
      rw [mem_edges_graph, Graph.mem_edges_addEdge, mem_edges_graph, get?_addEdge hab]
      by_cases hk : a = k
      · subst hk
        cases hget : st.referrers.get? a with
        | none => simp [hab]
        | some s => simp [hab]
      · simp [hk, Ne.symm hk]
    · intro t
      rw [Graph.roots_addEdge]
      show t ∈ ((addEdge a b).run st).2.roots ↔ _
      rw [roots_addEdge]
      exact Iff.rfl

theorem run_addAll_cons (t b : TypeName) (ts : List TypeName) :
    (addAll (t :: ts) b).run st = (addAll ts b).run ((addEdge t b).run st).2 := by
  rfl

theorem Sound.addAll (h : st.Sound) (ts : List TypeName) (b : TypeName) :
    ((addAll ts b).run st).2.Sound := by
  induction ts generalizing st with
  | nil => exact h
  | cons t ts ih =>
    rw [run_addAll_cons]
    exact ih (h.addEdge t b)

/-- Edges that are recorded one by one are recorded together. -/
theorem graph_addAll (st : GraphStore) (ts : List TypeName) (b : TypeName) :
    ((addAll ts b).run st).2.graph = st.graph.addAll ts b := by
  induction ts generalizing st with
  | nil =>
    apply Graph.ext_of_mem
    · intro e
      rw [Graph.mem_edges_addAll]
      exact (or_iff_right (by simp)).symm
    · intro t
      rw [Graph.roots_addAll]
      exact Iff.rfl
  | cons t ts ih =>
    rw [run_addAll_cons, ih, graph_addEdge]
    apply Graph.ext_of_mem
    · intro e
      rw [Graph.mem_edges_addAll, Graph.mem_edges_addEdge, Graph.mem_edges_addAll, ← or_assoc]
      apply or_congr_left
      obtain ⟨k, v⟩ := e
      simp only [List.mem_cons, Edge.mk.injEq]
      grind
    · intro u
      rw [Graph.roots_addAll, Graph.roots_addEdge, Graph.roots_addAll]

/-! ## §5 Readers -/

theorem toList_referrersOf (st : GraphStore) (t : TypeName) :
    ((referrersOf t).run st).1.toList = st.graph.referrers t := by
  apply ((referrersOf t).run st).1.ascending.eq_of_mem_iff (st.graph.ascending_referrers t)
  intro v
  rw [Graph.mem_referrers_iff, mem_edges_graph, OrdSet.mem_toList]
  show v ∈ (st.referrers.get? t).getD ∅ ↔ _
  cases st.referrers.get? t with
  | none => simp
  | some s => simp

/-- The two cases of a count that are told apart do not differ: an empty set counts nothing. -/
theorem connectionCount_eq (st : GraphStore) (t : TypeName) :
    ((connectionCount t).run st).1 = st.graph.connectionCount t := by
  rw [Graph.connectionCount, ← toList_referrersOf]
  simp only [connectionCount, referrersOf, StateT.run_bind, StateT.run_get, pure_bind,
    StateT.run_pure]
  cases st.referrers.get? t with
  | none => rfl
  | some s =>
    by_cases hs : s = ∅
    · subst hs
      rfl
    · exact if_neg hs

/-- A type has a set if it is referenced, since no set is empty. -/
theorem Sound.contains_eq (h : st.Sound) (t : TypeName) :
    ((contains t).run st).1 = st.graph.contains t := by
  rw [Bool.eq_iff_iff, Graph.contains_iff]
  show (st.referrers.get? t).isSome = true ↔ _
  simp only [mem_edges_graph]
  cases hget : st.referrers.get? t with
  | none => simp
  | some s => simpa using h.inhabited t s hget

/-- The names in the dictionary are the types that are referenced. -/
theorem Sound.targets_eq (h : st.Sound) : st.graph.targets = st.referrers.sorted.map Prod.fst := by
  apply st.graph.ascending_targets.eq_of_mem_iff st.referrers.ascending_sorted
  intro t
  rw [← Graph.contains_iff_mem_targets, ← h.contains_eq]
  show (st.referrers.get? t).isSome = true ↔ _
  rw [Option.isSome_iff_exists, List.mem_map]
  apply Iff.intro
  · rintro ⟨s, hs⟩
    exact ⟨(t, s), SetDict.mem_sorted_iff.2 hs, rfl⟩
  · rintro ⟨⟨k, s⟩, hmem, rfl⟩
    exact ⟨s, SetDict.mem_sorted_iff.1 hmem⟩

theorem Sound.size_eq (h : st.Sound) : (size.run st).1 = st.graph.size := by
  rw [Graph.size, h.targets_eq, List.length_map, SetDict.length_sorted]
  rfl

theorem Sound.nodeRows_eq (h : st.Sound) : (nodeRows.run st).1 = st.graph.nodeRows := by
  rw [Graph.nodeRows, h.targets_eq, List.map_map]
  apply List.map_congr_left
  rintro ⟨t, s⟩ hmem
  have hcount : st.graph.connectionCount t = s.size := by
    rw [Graph.connectionCount, ← toList_referrersOf]
    show ((st.referrers.get? t).getD ∅).size = s.size
    rw [SetDict.mem_sorted_iff.1 hmem]
    rfl
  simp [hcount]

/-- The rows of the edges into a type that is not among their sources: those that are left out are
    the ones that lack a name. -/
theorem filterMap_edgeRow? {t : TypeName} {vs : List TypeName} (ht : t ∉ vs) :
    vs.filterMap (edgeRow? st.roots t) =
      ((vs.map fun v => (⟨t, v⟩ : Edge)).filter fun e => e.source != "" && e.target != "").map
        st.graph.edgeRow := by
  induction vs with
  | nil => rfl
  | cons v vs ih =>
    rw [List.mem_cons, not_or] at ht
    rw [List.map_cons, List.filter_cons, List.filterMap_cons, ih ht.2]
    by_cases hnamed : v = "" ∨ t = ""
    · rcases hnamed with rfl | rfl <;> simp [edgeRow?]
    · rw [not_or] at hnamed
      simp [edgeRow?, hnamed, Ne.symm ht.1, Graph.edgeRow, Graph.isRoot, graph]

/-- The table of edges is written set by set, and no set holds the type under which it stands. -/
theorem Sound.edgeRows_eq (h : st.Sound) : (edgeRows.run st).1 = st.graph.edgeRows := by
  show (st.referrers.sorted.flatMap fun e => e.2.toList.filterMap (edgeRow? st.roots e.1)) =
    (st.pairs.filter fun e => e.source != "" && e.target != "").map st.graph.edgeRow
  rw [pairs, List.filter_flatMap, List.map_flatMap, List.flatMap_def, List.flatMap_def]
  apply congrArg List.flatten
  apply List.map_congr_left
  rintro ⟨t, s⟩ hmem
  exact filterMap_edgeRow? (h.elsewhere t s (SetDict.mem_sorted_iff.1 hmem))

/-! ## §6 Steps -/

/-- A step is answered as by the graph that the store stands for, and leads to a store that stands
    for the graph after the step. A reader leaves the store as it is. -/
theorem step_refines (h : st.Sound) (s : GraphStep) :
    st.answer s = st.graph.answer s ∧ (st.after s).graph = st.graph.after s ∧ (st.after s).Sound ∧
      (s.writes = false → st.after s = st) := by
  cases s with
  | addEdge a b => exact ⟨rfl, graph_addEdge st a b, h.addEdge a b, nofun⟩
  | addAll ts b => exact ⟨rfl, graph_addAll st ts b, h.addAll ts b, nofun⟩
  | addRoot t => exact ⟨rfl, rfl, ⟨h.inhabited, h.elsewhere⟩, nofun⟩
  | isRoot t => exact ⟨rfl, rfl, h, fun _ => rfl⟩
  | contains t => exact ⟨congrArg GraphAnswer.truth (h.contains_eq t), rfl, h, fun _ => rfl⟩
  | roots => exact ⟨rfl, rfl, h, fun _ => rfl⟩
  | referrers t =>
    exact ⟨congrArg GraphAnswer.names (toList_referrersOf st t), rfl, h, fun _ => rfl⟩
  | connectionCount t =>
    exact ⟨congrArg GraphAnswer.count (connectionCount_eq st t), rfl, h, fun _ => rfl⟩
  | size => exact ⟨congrArg GraphAnswer.count h.size_eq, rfl, h, fun _ => rfl⟩
  | nodes => exact ⟨congrArg GraphAnswer.nodes h.nodeRows_eq, rfl, h, fun _ => rfl⟩
  | edges => exact ⟨congrArg GraphAnswer.edges h.edgeRows_eq, rfl, h, fun _ => rfl⟩

/-- After any steps on a new store, it stands for the graph after the same steps, and it is
    sound. -/
theorem refines_afterAll (steps : List GraphStep) :
    (empty.afterAll steps).graph = Graph.empty.afterAll steps ∧ (empty.afterAll steps).Sound := by
  have hfrom : ∀ st : GraphStore, st.Sound →
      (st.afterAll steps).graph = st.graph.afterAll steps ∧ (st.afterAll steps).Sound := by
    induction steps with
    | nil => exact fun st h => ⟨rfl, h⟩
    | cons s steps ih =>
      intro st h
      obtain ⟨-, hgraph, hsound, -⟩ := step_refines h s
      obtain ⟨hrest, hsound'⟩ := ih (st.after s) hsound
      rw [hgraph] at hrest
      exact ⟨hrest, hsound'⟩
  exact hfrom empty sound_empty

/-! ## §7 Readings -/

/-- The store answers as the given edges, those from a type to itself apart, and the given roots
    are to be answered. -/
structure ReadsAs (st : GraphStore) (recorded : Edge → Prop) (marked : TypeName → Prop) :
    Prop where
  /-- The referrers of a type are the other types recorded to reference it, each once. The type is
      in the graph if it has referrers, and their number is its count of connections. -/
  referrers : ∀ k, ∃ vs : List TypeName, st.answer (.referrers k) = .names vs ∧ vs.Nodup ∧
    (∀ v, v ∈ vs ↔ recorded ⟨k, v⟩ ∧ v ≠ k) ∧
    (st.answer (.contains k) = .truth true ↔ vs ≠ []) ∧
    st.answer (.connectionCount k) = .count vs.length
  /-- The roots are the types marked, each once. -/
  roots : ∃ ts : List TypeName, st.answer .roots = .names ts ∧ ts.Nodup ∧ ∀ t, t ∈ ts ↔ marked t
  isRoot : ∀ t, st.answer (.isRoot t) = .truth true ↔ marked t
  /-- There is a node for each type in the graph, with the number of its referrers, and for nothing
      else. The nodes are strictly ascending, and their number is the size of the graph. -/
  nodes : ∃ rows : List Graph.NodeRow, st.answer .nodes = .nodes rows ∧
    Ascending (rows.map Graph.NodeRow.type) ∧
    (∀ row, row ∈ rows ↔ st.answer (.contains row.type) = .truth true ∧
      st.answer (.connectionCount row.type) = .count row.connections) ∧
    (∀ row ∈ rows, 1 ≤ row.connections) ∧ st.answer .size = .count rows.length
  /-- There is a row for each edge with names at both ends, and for nothing else. It weighs three
      if it leaves a root, and one if not. The rows are strictly ascending by target and then by
      source. -/
  edges : ∃ rows : List Graph.EdgeRow, st.answer .edges = .edges rows ∧
    Ascending (rows.map Graph.EdgeRow.edge) ∧
    ∀ row, row ∈ rows ↔
      recorded ⟨row.target, row.source⟩ ∧ row.source ≠ row.target ∧
        row.source ≠ "" ∧ row.target ≠ "" ∧
        (marked row.source → row.weight = 3) ∧ (¬ marked row.source → row.weight = 1)

/-- A sound store answers as the graph that it stands for is to be read. -/
theorem Sound.readsAs {recorded : Edge → Prop} {marked : TypeName → Prop} (h : st.Sound)
    (hreads : st.graph.ReadsAs recorded marked) : st.ReadsAs recorded marked := by
  have hanswer : ∀ s, st.answer s = st.graph.answer s := fun s => (step_refines h s).1
  refine ⟨fun k => ?_, ?_, fun t => ?_, ?_, ?_⟩
  · refine ⟨_, hanswer _, hreads.referrers_once k, hreads.referrers k, ?_, ?_⟩
    · rw [hanswer, ← hreads.contains k]
      simp [Graph.answer]
    · rw [hanswer, ← hreads.connectionCount k]
      rfl
  · exact ⟨_, hanswer _, OrdSet.nodup_toList _, hreads.roots⟩
  · rw [hanswer, ← hreads.isRoot t]
    simp [Graph.answer]
  · refine ⟨_, hanswer _, hreads.nodes_ascending, fun row => ?_, hreads.nodes_connected, ?_⟩
    · rw [hanswer, hanswer, hreads.nodes row, eq_comm (a := row.connections)]
      simp [Graph.answer]
    · rw [hanswer, ← hreads.size]
      rfl
  · exact ⟨_, hanswer _, hreads.edges_ascending, hreads.edges⟩

/-- After any steps on a new store, it reads as the edges recorded and the roots marked by them,
    wherever in the sequence each of them came, and every step is answered as by the graph after the
    same steps. A step that reads leaves the store as it is. Sequences that record the same edges
    and mark the same roots are answered alike. -/
theorem readings_after_history :
    (∀ steps, (empty.afterAll steps).ReadsAs
      (fun e => ∃ step ∈ steps, step.Records e) fun t => ∃ step ∈ steps, step.Marks t) ∧
    (∀ steps question, (empty.afterAll steps).answer question =
      (Graph.empty.afterAll steps).answer question) ∧
    (∀ steps question, question.writes = false →
      (empty.afterAll steps).after question = empty.afterAll steps) ∧
    ∀ steps steps' : List GraphStep,
      (∀ e : Edge, e.target ≠ e.source →
        ((∃ step ∈ steps, step.Records e) ↔ ∃ step ∈ steps', step.Records e)) →
      (∀ t, (∃ step ∈ steps, step.Marks t) ↔ ∃ step ∈ steps', step.Marks t) →
      ∀ question, (empty.afterAll steps).answer question =
        (empty.afterAll steps').answer question := by
  have hanswer : ∀ steps question, (empty.afterAll steps).answer question =
      (Graph.empty.afterAll steps).answer question := by
    intro steps question
    obtain ⟨hgraph, hsound⟩ := refines_afterAll steps
    rw [(step_refines hsound question).1, hgraph]
  refine ⟨fun steps => ?_, hanswer, fun steps question => ?_, fun steps steps' hrec hmark q => ?_⟩
  · obtain ⟨hgraph, hsound⟩ := refines_afterAll steps
    apply hsound.readsAs
    rw [hgraph]
    exact Graph.readsAs_afterAll steps
  · exact (step_refines (refines_afterAll steps).2 question).2.2.2
  · rw [hanswer, hanswer, Graph.afterAll_eq_of_same hrec hmark]

/-- A root marked before its edges are recorded and after they are. -/
theorem readings_after_history_root :
    (empty.afterAll [.addRoot "B", .addAll ["A", "B"] "B", .referrers "C"]).answer .edges =
      (empty.afterAll [.addEdge "A" "B", .addEdge "A" "B", .addRoot "B"]).answer .edges ∧
    (empty.afterAll [.addRoot "B", .addAll ["A", "B"] "B"]).after (.referrers "C") =
      empty.afterAll [.addRoot "B", .addAll ["A", "B"] "B"] := by
  obtain ⟨-, -, hreader, hsame⟩ := readings_after_history
  refine ⟨hsame _ _ ?_ ?_ .edges, hreader _ _ rfl⟩
  · rintro ⟨t, v⟩ hne
    simp only [List.mem_cons, List.not_mem_nil, or_false, exists_eq_or_imp, exists_eq_left,
      GraphStep.Records, Edge.mk.injEq]
    -- the edge from `B` to itself is the only difference
    grind
  · simp [GraphStep.Marks]

end GraphStore

end TypeAtlas
