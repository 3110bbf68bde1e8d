import TypeAtlas.Proofs.Session.Primitives

/-!
# The empty name in sessions

An empty string names no type wherever a description may name one, with one exception: the types
nested in a type are taken as they are told. So the empty name is told as a reference, found by a
walk or referenced in the graph exactly where a type is met in which the empty name is nested, by
its own description or by that of a type with the empty name.

Main statement: `TypeIndex.empty_name_through_nesting`.
-/

namespace TypeAtlas

namespace TypeIndex

variable {x : TypeIndex} {blind : List TypeName} {config : Config}

/-! ## §1 Types in which the empty name is nested -/

/-- The empty name is nested in the type: the description of the type tells it among the nested
    types, or a type of the empty name declares the type as the one that it is a member of. -/
structure NestsEmpty (x : TypeIndex) (t : TypeName) : Prop where
  /-- No type references itself. -/
  named : t ≠ ""
  /-- No primitive type is a reference. -/
  kept : x.isPrimitive "" = false
  nested : ∃ d ∈ x.types, Nests d t ""

/-- The empty name is a direct reference of the types in which it is nested, and of no others. -/
theorem leads_empty_iff {t : TypeName} :
    (x.context blind config).refs.Leads t "" ↔ x.Describes blind t ∧ x.NestsEmpty t := by
  apply Iff.intro
  · intro hlead
    obtain ⟨rs, hrs, hmem⟩ := hlead
    have hdescribes : x.Describes blind t := exists_refs_context_iff.1 ⟨rs, hrs⟩
    obtain ⟨hblind, d, hd⟩ := describes_iff_exists_find?.1 hdescribes
    cases hrs.symm.trans (refs_context hd hblind)
    obtain ⟨hmentioned, hkept, hne⟩ := Context.mem_keepReferences_iff.1 hmem
    -- every other place in a description passes over the empty string
    have hnested := (mem_mentionedBy_iff.1 hmentioned).resolve_right fun h => h.1 rfl
    rw [(mem_types_of_find? hd).2] at hnested
    exact ⟨hdescribes, hne.symm, hkept, mem_nestedIn_iff.1 hnested⟩
  · intro h
    obtain ⟨hdescribes, hnamed, hkept, hnested⟩ := h
    obtain ⟨hblind, d, hd⟩ := describes_iff_exists_find?.1 hdescribes
    refine ⟨_, refs_context hd hblind, Context.mem_keepReferences_iff.2 ⟨?_, hkept, hnamed.symm⟩⟩
    rw [mem_mentionedBy_iff, (mem_types_of_find? hd).2]
    exact .inl (mem_nestedIn_iff.2 hnested)

/-- A walk from the type within the depth comes to a type in which the empty name is nested. -/
def MeetsNesting (x : TypeIndex) (blind : List TypeName) (config : Config) (t : TypeName)
    (d : Int) : Prop :=
  ∃ u, ∃ n : Nat, (d = -1 ∨ (n : Int) ≤ d) ∧ (x.context blind config).refs.ReachesIn t n u ∧
    x.Describes blind u ∧ x.NestsEmpty u

/-! ## §2 What walks find -/

theorem exists_reachesIn_empty_iff {t : TypeName} {d : Int} :
    (∃ n : Nat, (d = -1 ∨ (n : Int) ≤ d) ∧
      (x.context blind config).refs.ReachesIn t (n + 1) "") ↔ x.MeetsNesting blind config t d := by
  apply Iff.intro
  · intro h
    obtain ⟨n, hn, hreach⟩ := h
    obtain ⟨u, hu, hlead⟩ := hreach.exists_last
    exact ⟨u, n, hn, hu, leads_empty_iff.1 hlead⟩
  · intro h
    obtain ⟨u, n, hn, hu, hnesting⟩ := h
    exact ⟨n, hn, hu.tail (leads_empty_iff.2 hnesting)⟩

/-- An exploration tells the empty name as a type that it reached exactly when it comes to a type in
    which the empty name is nested, and else nowhere. -/
theorem spares_empty_iff {s : Session Unit} (hs : (x.context blind config).Coherent s)
    {t : TypeName} (ht : t ≠ "") {d : Int} {e : Exploration}
    (he : (((x.context blind config).explore t d).run s).1 = .ok e) :
    ("" ∈ e.types ↔ x.MeetsNesting blind config t d) ∧
      (e.Spares (· == "") ↔ ¬ x.MeetsNesting blind config t d) := by
  have hctx := lawful_context x blind config
  obtain ⟨bound, hb, hroot, rfl⟩ := Context.exists_record_of_run_explore hctx hs he
  have hfinished := Context.finished_record hctx t bound
  have htypes : "" ∈ reachable ((x.context blind config).record t bound).adjacency t ↔
      x.MeetsNesting blind config t d := by
    rw [hfinished.mem_reachable_root_iff, ← exists_reachesIn_empty_iff, and_iff_right ht.symm]
    simp only [Bound.admits_iff hb]
  refine ⟨htypes, ?_⟩
  rw [Context.spares_iff_of_finished hfinished hroot, ← htypes]
  apply Iff.intro
  · intro hspares hmem
    cases hspares "" hmem
  · intro hmem u hu
    rw [beq_eq_false_iff_ne]
    rintro rfl
    exact hmem hu

/-! ## §3 Sessions over an index -/

/-- After any steps that record no edges by themselves: the empty name is a direct reference of the
    types in which it is nested, and of no others. What is told of a walk from a type with a name
    has the empty name in it exactly when the walk comes to such a type, and the table of nodes has
    a row for it exactly when the references of such a type are cached. Where the empty name is
    nested in no type that can be described, nothing in the session tells it as a reference or as
    the end of a walk. -/
theorem empty_name_through_nesting (x : TypeIndex) (blind : List TypeName) (config : Config)
    {steps : List Step} (hsteps : ∀ step ∈ steps, step.recordsEdges = false) {s : Session Unit}
    (hs : s = (x.context blind config).after Session.fresh steps) :
    (∀ t rs, (((x.context blind config).directReferences t).run s).1 = .ok rs →
      ("" ∈ rs ↔ x.NestsEmpty t)) ∧
    (∀ t d e, t ≠ "" → (((x.context blind config).explore t d).run s).1 = .ok e →
      ("" ∈ e.types ↔ x.MeetsNesting blind config t d) ∧
      (e.Spares (· == "") ↔ ¬ x.MeetsNesting blind config t d)) ∧
    (∀ t depth ts, t ≠ "" → (((x.context blind config).closure t depth).run s).1 = .ok ts →
      ("" ∈ ts ↔ x.MeetsNesting blind config t ((x.context blind config).depthOr depth))) ∧
    (∀ t depth c, t ≠ "" → (((x.context blind config).closureTree t depth).run s).1 = .ok c →
      ("" ∈ c.types ↔ x.MeetsNesting blind config t ((x.context blind config).depthOr depth)) ∧
      ("" ∈ c.unresolved → "" ∈ c.types) ∧ ∀ entry ∈ c.entries, entry.Holds "" → "" ∈ c.types) ∧
    ((∃ row ∈ s.graph.nodeRows, row.type = "") ↔
      ∃ u, s.descriptors.contains u = true ∧ x.NestsEmpty u) ∧
    ((∀ u, x.Describes blind u → ¬ x.NestsEmpty u) →
      (x.context blind config).Spares (· == "") s) := by
  have hctx := lawful_context x blind config
  have hgrounded : (x.context blind config).Grounded s := by
    rw [hs]
    exact (Context.invariant_grounded hctx).after hsteps Context.grounded_fresh
  have hcoherent := hgrounded.coherent
  refine ⟨?direct, ?explore, ?closure, ?tree, ?nodes, ?spared⟩
  case direct =>
    intro t rs hrs
    have href := (Context.refs_eq_some_iff_run hctx hcoherent).2 hrs
    have hdescribes : x.Describes blind t := exists_refs_context_iff.1 ⟨rs, href⟩
    rw [← and_iff_right (b := x.NestsEmpty t) hdescribes, ← leads_empty_iff]
    apply Iff.intro
    · exact fun hmem => ⟨rs, href, hmem⟩
    · intro hlead
      obtain ⟨rs', hrs', hmem⟩ := hlead
      cases href.symm.trans hrs'
      exact hmem
  case explore =>
    intro t d e ht he
    exact spares_empty_iff hcoherent ht he
  case closure =>
    intro t depth ts ht hts
    obtain ⟨e, s', hrun, hrest⟩ := Asking.exists_of_run_bind_eq_ok hts
    cases hrest
    exact (spares_empty_iff hcoherent ht (congrArg Prod.fst hrun)).1
  case tree =>
    intro t depth c ht hc
    obtain ⟨e, s', hrun, hrest⟩ := Asking.exists_of_run_bind_eq_ok hc
    cases hrest
    have he := congrArg Prod.fst hrun
    obtain ⟨htypes, hspares⟩ := spares_empty_iff hcoherent ht he
    refine ⟨htypes, ?unresolved, ?entries⟩
    case unresolved =>
      intro hmem
      apply htypes.2
      by_contra hnone
      cases (hspares.2 hnone).unresolved "" hmem
    case entries =>
      intro entry hentry hholds
      apply htypes.2
      by_contra hnone
      cases (hspares.2 hnone).entries entry hentry "" hholds
  case nodes =>
    apply Iff.intro
    · intro hrow
      obtain ⟨row, hrow, hempty⟩ := hrow
      obtain ⟨v, hv⟩ := Graph.contains_iff.1 (Graph.mem_nodeRows_iff.1 hrow).1
      rw [hempty] at hv
      -- the last reference of the walk that explains the edge is a cached one
      obtain ⟨-, n, hreach, -⟩ := hgrounded.explained _ hv
      obtain ⟨u, -, rs, hcached, hmem⟩ := hreach.exists_last
      have hlead := leads_empty_iff.1 ⟨rs, hcoherent.known u rs hcached, hmem⟩
      exact ⟨u, Option.isSome_iff_exists.2 ⟨rs, hcached⟩, hlead.2⟩
    · intro hcached
      obtain ⟨u, hcontains, hnests⟩ := hcached
      obtain ⟨rs, hrs⟩ := Option.isSome_iff_exists.1 hcontains
      have href := hcoherent.known u rs hrs
      have hdescribes : x.Describes blind u := exists_refs_context_iff.1 ⟨rs, href⟩
      obtain ⟨rs', hrs', hmem⟩ := leads_empty_iff.2 ⟨hdescribes, hnests⟩
      cases href.symm.trans hrs'
      have hedge := hcoherent.drawn u rs hrs "" hmem
      refine ⟨⟨"", s.graph.connectionCount ""⟩, Graph.mem_nodeRows_iff.2 ?_, rfl⟩
      exact ⟨Graph.contains_iff.2 ⟨u, hedge⟩, rfl⟩
  case spared =>
    intro hnone
    apply hgrounded.spares_of_leads hctx
    intro u t hlead
    rw [beq_eq_false_iff_ne]
    rintro rfl
    obtain ⟨hdescribes, hnests⟩ := leads_empty_iff.1 hlead
    exact hnone u hdescribes hnests

/-- An index that describes a type in which the empty name is nested. -/
def hollow : TypeIndex :=
  ofSchema { types := [{ name := "A", nested := [""] }] } []

/-- The empty name is a direct reference of the type, is in the closure of it, and has a row in the
    table of nodes. -/
theorem empty_name_through_nesting_hollow :
    ∃ s, s = (hollow.context [] {}).after Session.fresh [.direct "A", .closure "A" none] ∧
      hollow.NestsEmpty "A" ∧
      (∃ rs, (((hollow.context [] {}).directReferences "A").run s).1 = .ok rs ∧ "" ∈ rs) ∧
      (∃ ts, (((hollow.context [] {}).closure "A" none).run s).1 = .ok ts ∧ "" ∈ ts) ∧
      ∃ row ∈ s.graph.nodeRows, row.type = "" := by
  have hsteps : ∀ step ∈ [Step.direct "A", .closure "A" none], step.recordsEdges = false := by
    decide
  have hnests : hollow.NestsEmpty "A" :=
    ⟨by decide, by decide +kernel, ⟨{ name := "A", nested := [""] }, by decide, .inl (by decide)⟩⟩
  have hcached : ((hollow.context [] {}).after Session.fresh
      [.direct "A", .closure "A" none]).descriptors.contains "A" = true := by
    decide +kernel
  obtain ⟨hdirect, -, hclosure, -, hnodes, -⟩ := empty_name_through_nesting hollow [] {} hsteps rfl
  have hmeets : hollow.MeetsNesting [] {} "A" ((hollow.context [] {}).depthOr none) :=
    ⟨"A", 0, .inl rfl, .refl, describes_iff_exists_find?.2 ⟨by decide, _, rfl⟩, hnests⟩
  refine ⟨_, rfl, hnests, ⟨_, rfl, ?_⟩, ⟨_, rfl, ?_⟩, hnodes.2 ⟨"A", hcached, hnests⟩⟩
  · exact (hdirect "A" _ rfl).2 hnests
  · exact (hclosure "A" none _ (by decide) rfl).2 hmeets

end TypeIndex

end TypeAtlas
