import Mathlib.Data.List.Perm.Lattice
import TypeAtlas.Proofs.Analysis.Gains

/-!
# How roots are listed

An analysis shares one cache and one graph between its roots, yet what it tells does not depend on
how the roots are listed: neither on their order, nor on repetitions, nor on blanks. The roots of
two listings of the same names are rearrangements of each other, and what is told of a root is told
of it alone.

Main statement: `TypeIndex.analysis_of_same_names`.
-/

namespace TypeAtlas

/-! ## §1 Listings of the same names -/

/-- Two listings name the same types, blanks around the names and empty names apart. -/
def NameAlike (names names' : List String) : Prop :=
  ∀ n, n ≠ "" → ((∃ m ∈ names, Text.strip m = n) ↔ ∃ m ∈ names', Text.strip m = n)

variable {names names' : List String}

theorem nameAlike_iff_mem_cleanNames :
    NameAlike names names' ↔ ∀ n, n ∈ cleanNames names ↔ n ∈ cleanNames names' := by
  simp only [mem_cleanNames_iff, and_congr_right_iff]
  exact Iff.rfl

theorem NameAlike.cleanNames_perm (h : NameAlike names names') :
    (cleanNames names).Perm (cleanNames names') := by
  rw [List.perm_ext_iff_of_nodup (nodup_cleanNames names) (nodup_cleanNames names')]
  exact nameAlike_iff_mem_cleanNames.1 h

/-- A name without blanks around it is listed as it stands. -/
theorem cleanNames_singleton {n : String} (hstrip : Text.strip n = n) (hne : n ≠ "") :
    cleanNames [n] = [n] := by
  unfold cleanNames
  simp [hstrip, hne]

theorem strip_eq_of_mem_cleanNames {n : String} (h : n ∈ cleanNames names) :
    Text.strip n = n ∧ n ≠ "" := by
  obtain ⟨hne, m, -, rfl⟩ := mem_cleanNames_iff.1 h
  exact ⟨Text.strip_strip m, hne⟩

/-! ## §2 Two analyses from one session -/

/-- Two analyses tell the same, the metrics and the names left out each in an order of its own. -/
structure Analysis.TellsAlike (a a' : Analysis) : Prop where
  depth : a'.depth = a.depth
  metrics : a.metrics.Perm a'.metrics
  unresolved : a.unresolved.Perm a'.unresolved
  nodes : a'.nodes = a.nodes
  edges : a'.edges = a.edges

namespace Context

variable {ctx : Context Unit} {known : TypeName → Bool}

/-- From one session, listings of the same names lead to analyses that tell the same, and leave the
    same cache and the same graph. -/
theorem exists_run_analyses (hctx : ctx.Lawful) (hknows : ctx.Knows known) {s : Session Unit}
    (hs : ctx.Coherent s) (hsame : NameAlike names names') {depth : Option Int} {bound : Bound}
    (hb : Bound.ofInt? (ctx.depthOr depth) = some bound) :
    ∃ a a' s₁ s₂, (ctx.analysis names depth).run s = (.ok a, s₁) ∧
      (ctx.analysis names' depth).run s = (.ok a', s₂) ∧ a.TellsAlike a' ∧
      s₂.descriptors = s₁.descriptors ∧ s₂.graph = s₁.graph ∧
      a.metrics = (rootsAmong known names).filterMap (ctx.row? (ctx.depthOr depth)) := by
  obtain ⟨s₁, hrun₁, hgain₁⟩ := run_analysis hctx hknows hs names hb
  obtain ⟨s₂, hrun₂, hgain₂⟩ := run_analysis hctx hknows hs names' hb
  have hclean := hsame.cleanNames_perm
  have hroots : (rootsAmong known names).Perm (rootsAmong known names') := hclean.filter _
  -- the same roots gain the same, in whatever order
  have hgain : (⟨∅, ∅, {t | t ∈ rootsAmong known names'}⟩ ∪
        .all (ctx.exploring bound) (rootsAmong known names') : Gain) =
      ⟨∅, ∅, {t | t ∈ rootsAmong known names}⟩ ∪
        .all (ctx.exploring bound) (rootsAmong known names) := by
    rw [Gain.all_congr (ctx.exploring bound) fun t => hroots.mem_iff]
    simp only [hroots.mem_iff]
  rw [hgain] at hgain₂
  obtain ⟨hdescriptors, hgraph⟩ := hgain₂.unique hgain₁
  refine ⟨_, _, s₁, s₂, hrun₁, hrun₂, ?_, hdescriptors, hgraph, rfl⟩
  constructor
  case depth => rfl
  case metrics => exact hroots.filterMap _
  case unresolved => exact (hclean.filter _).append (hroots.filter _)
  case nodes => exact congrArg Graph.nodeRows hgraph
  case edges => exact congrArg Graph.edgeRows hgraph

/-- What an analysis tells of a root is what an analysis of this root alone tells in any session. -/
theorem exists_run_analysis_singleton (hctx : ctx.Lawful) (hknows : ctx.Knows known)
    {s : Session Unit} (hs : ctx.Coherent s) {depth : Option Int} {bound : Bound}
    (hb : Bound.ofInt? (ctx.depthOr depth) = some bound) {m : Metrics}
    (hm : m ∈ (rootsAmong known names).filterMap (ctx.row? (ctx.depthOr depth))) :
    ∃ a s', (ctx.analysis [m.type] depth).run s = (.ok a, s') ∧ a.metrics = [m] := by
  obtain ⟨t, ht, hrow⟩ := List.mem_filterMap.1 hm
  obtain ⟨rfl, -⟩ := of_row?_eq_some hctx hknows hb hrow
  obtain ⟨hname, hknown⟩ := mem_rootsAmong_iff.1 ht
  obtain ⟨hstrip, hne⟩ := strip_eq_of_mem_cleanNames hname
  obtain ⟨s', hrun, -⟩ := run_analysis hctx hknows hs [m.type] hb
  refine ⟨_, s', hrun, ?_⟩
  have hroots : rootsAmong known [m.type] = [m.type] := by
    unfold rootsAmong
    rw [cleanNames_singleton hstrip hne, List.filter_cons_of_pos hknown, List.filter_nil]
  dsimp only
  rw [hroots, List.filterMap_cons_some hrow, List.filterMap_nil]

end Context

/-! ## §3 Sessions over an index -/

namespace TypeIndex

/-- From every session over an index that steps lead to, and for every depth of at least minus one,
    listings of the same names, in whatever order, with repetitions, blanks around them and empty
    entries, lead to analyses that tell the same tables, the same metrics and the same names left
    out, and leave the same cache and the same graph. The metrics of each root are those that an
    analysis of this root alone tells, in every session that steps lead to. -/
theorem analysis_of_same_names (x : TypeIndex) (blind : List TypeName) (config : Config)
    {s : Session Unit} (hs : (x.context blind config).Reached s) {names names' : List String}
    (hsame : NameAlike names names') {depth : Option Int}
    (hdepth : -1 ≤ (x.context blind config).depthOr depth) :
    ∃ a a' s₁ s₂, ((x.context blind config).analysis names depth).run s = (.ok a, s₁) ∧
      ((x.context blind config).analysis names' depth).run s = (.ok a', s₂) ∧
      a.TellsAlike a' ∧ s₂.descriptors = s₁.descriptors ∧ s₂.graph = s₁.graph ∧
      ∀ m ∈ a.metrics, ∀ s₀, (x.context blind config).Reached s₀ →
        ∃ b s₀', ((x.context blind config).analysis [m.type] depth).run s₀ = (.ok b, s₀') ∧
          b.metrics = [m] := by
  have hctx := lawful_context x blind config
  have hknows := knows_context x blind config
  obtain ⟨bound, hb⟩ := Bound.exists_ofInt?_eq_some hdepth
  obtain ⟨a, a', s₁, s₂, hrun₁, hrun₂, halike, hdescriptors, hgraph, hmetrics⟩ :=
    Context.exists_run_analyses hctx hknows (hs.coherent hctx) hsame hb
  refine ⟨a, a', s₁, s₂, hrun₁, hrun₂, halike, hdescriptors, hgraph, ?_⟩
  intro m hm s₀ hs₀
  rw [hmetrics] at hm
  exact Context.exists_run_analysis_singleton hctx hknows (hs₀.coherent hctx) hb hm

/-- The roots `A` and `B` in two orders, one of them repeated and with blanks. -/
theorem analysis_of_same_names_ring :
    ∃ a a' s₁ s₂,
      ((ring.context ["C"] {}).analysis ["A", "B", "C"] (some (-1))).run
          ((ring.context ["C"] {}).after Session.fresh [.explore "B" none]) = (.ok a, s₁) ∧
      ((ring.context ["C"] {}).analysis [" C", "B", "", "A ", "B"] (some (-1))).run
          ((ring.context ["C"] {}).after Session.fresh [.explore "B" none]) = (.ok a', s₂) ∧
      a.TellsAlike a' ∧ s₂.graph = s₁.graph := by
  have hsame : NameAlike ["A", "B", "C"] [" C", "B", "", "A ", "B"] := by
    have hclean : cleanNames ["A", "B", "C"] = ["A", "B", "C"] := by decide +kernel
    have hclean' : cleanNames [" C", "B", "", "A ", "B"] = ["C", "B", "A"] := by decide +kernel
    rw [nameAlike_iff_mem_cleanNames, hclean, hclean']
    simp only [List.mem_cons, List.not_mem_nil, or_false]
    tauto
  have hdepth : -1 ≤ (ring.context ["C"] {}).depthOr (some (-1)) := by decide
  obtain ⟨a, a', s₁, s₂, hrun₁, hrun₂, halike, -, hgraph, -⟩ :=
    analysis_of_same_names ring ["C"] {} ⟨[.explore "B" none], rfl⟩ hsame hdepth
  exact ⟨a, a', s₁, s₂, hrun₁, hrun₂, halike, hgraph⟩

end TypeIndex

end TypeAtlas
