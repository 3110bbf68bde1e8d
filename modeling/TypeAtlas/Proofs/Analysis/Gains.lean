import Mathlib.Data.Set.Insert
import TypeAtlas.Proofs.Index.Building
import TypeAtlas.Proofs.Session.Steps

/-!
# What an analysis adds

An analysis registers the roots that its names resolve to, and explores from each of them. So the
graph that it reads out has those roots, and the edges that the explorations draw. What it tells of
a root is what a new session tells of it.

Main statements: `Context.run_analysis` and `Context.exists_run_analysis`.
-/

namespace TypeAtlas

/-! ## §1 Names -/

/-- The names in a list without the blanks around them, the empty ones left out, each at the place
    where it first occurs. -/
theorem cleanNames_eq (names : List String) :
    cleanNames names = TypeIndex.distinct ((names.map Text.strip).filter (· != "")) := by
  have key : ∀ acc : List String,
      names.foldl (fun acc n =>
        let n := Text.strip n
        if n = "" ∨ n ∈ acc then acc else acc ++ [n]) acc =
      ((names.map Text.strip).filter (· != "")).foldl TypeIndex.addNew acc := by
    induction names with
    | nil => exact fun acc => rfl
    | cons n names ih =>
      intro acc
      rw [List.foldl_cons, ih, List.map_cons, List.filter_cons]
      by_cases hempty : Text.strip n = ""
      · simp [hempty]
      · -- a name that is not empty is added unless it has been met
        simp [hempty, TypeIndex.addNew]
  exact key []

theorem mem_cleanNames_iff {names : List String} {n : String} :
    n ∈ cleanNames names ↔ n ≠ "" ∧ ∃ m ∈ names, Text.strip m = n := by
  rw [cleanNames_eq]
  unfold TypeIndex.distinct
  rw [TypeIndex.mem_foldl_addNew, List.mem_filter, List.mem_map, bne_iff_ne, and_comm]
  exact or_iff_right List.not_mem_nil

theorem nodup_cleanNames (names : List String) : (cleanNames names).Nodup := by
  rw [cleanNames_eq]
  exact TypeIndex.nodup_distinct _

namespace Context

variable {ctx : Context Unit}

/-! ## §2 Roots -/

/-- If the names are new and different, then after the roots kept in `acc` the known ones are kept
    as well and the others lost, and what is gained are those kept. -/
def Registers (known : TypeName → Bool) (acc : Parted TypeName) (names : List String)
    (roots : Parted TypeName) (g : Gain) : Prop :=
  names.Nodup → (∀ n ∈ names, n ∉ acc.kept) →
    roots = ⟨acc.kept ++ names.filter known, acc.lost ++ names.filter fun n => !known n⟩ ∧
      g = ⟨∅, ∅, {t | t ∈ names.filter known}⟩

theorem registers_nil (known : TypeName → Bool) (acc : Parted TypeName) :
    Registers known acc [] acc ∅ := by
  intro _ _
  have hnone : {t | t ∈ [].filter known} = (∅ : Set TypeName) :=
    Set.eq_empty_of_forall_notMem fun t h => List.not_mem_nil h
  rw [List.filter_nil, List.filter_nil, List.append_nil, List.append_nil]
  exact ⟨rfl, congrArg (Gain.mk ∅ ∅) hnone.symm⟩

theorem Registers.keep {known : TypeName → Bool} {acc roots : Parted TypeName} {n : String}
    {names : List String} {g : Gain}
    (h : Registers known { acc with kept := acc.kept ++ [n] } names roots g)
    (hknown : known n = true) : Registers known acc (n :: names) roots (.rooting n ∪ g) := by
  intro hnames hnew
  obtain ⟨hn, hnames⟩ := List.nodup_cons.1 hnames
  have hnew' : ∀ m ∈ names, m ∉ acc.kept ++ [n] := by
    intro m hm hmem
    rcases List.mem_append.1 hmem with hmem | hmem
    · exact hnew m (.tail _ hm) hmem
    · cases List.mem_singleton.1 hmem
      exact hn hm
  obtain ⟨rfl, rfl⟩ := h hnames hnew'
  -- the root that is kept first is gained besides the others
  have hroots : {t | t ∈ (n :: names).filter known} = {n} ∪ {t | t ∈ names.filter known} := by
    rw [List.filter_cons_of_pos hknown]
    exact Set.ext fun t => List.mem_cons
  refine ⟨?_, ?_⟩
  · simp [hknown]
  · show Gain.mk (∅ ∪ ∅) (∅ ∪ ∅) ({n} ∪ _) = _
    rw [hroots, Set.union_empty, Set.union_empty]

theorem Registers.lose {known : TypeName → Bool} {acc roots : Parted TypeName} {n : String}
    {names : List String} {g : Gain}
    (h : Registers known { acc with lost := acc.lost ++ [n] } names roots g)
    (hknown : known n = false) : Registers known acc (n :: names) roots (∅ ∪ g) := by
  intro hnames hnew
  obtain ⟨rfl, rfl⟩ := h (List.nodup_cons.1 hnames).2 fun m hm => hnew m (.tail _ hm)
  rw [Gain.empty_union]
  simp [hknown]

/-- The provider resolves the known names, each to the type of that name, and fails to tell the
    modifiers of a type only by not resolving it. -/
structure Knows (ctx : Context Unit) (known : TypeName → Bool) : Prop where
  resolves : ∀ n, ((ctx.provider.resolve n).run ()).1 =
    if known n = true then .ok n else .error (.unresolved n)
  tells : ∀ t, (∃ ms, ((ctx.provider.modifiers t).run ()).1 = .ok ms) ∨
    ∃ n, ((ctx.provider.modifiers t).run ()).1 = .error (.unresolved n)

variable {known : TypeName → Bool}

/-- Registering roots of different names keeps the known ones, and adds them to the graph. -/
theorem yields_registerRoots (hknows : ctx.Knows known) {names : List String}
    (hnames : names.Nodup) :
    ctx.Yields (ctx.registerRoots names)
      (.ok ⟨names.filter known, names.filter fun n => !known n⟩)
      ⟨∅, ∅, {t | t ∈ names.filter known}⟩ := by
  obtain ⟨roots, g, hyields, hregisters⟩ : ∃ roots g,
      ctx.Yields (ctx.registerRoots names) (.ok roots) g ∧ Registers known {} names roots g := by
    apply exists_yields_foldlM
    case hnil => exact registers_nil known
    case hcons =>
      intro acc n names
      have hask : ctx.Yields (Run.ask (ctx.provider.resolve n)) _ ∅ :=
        yields_ask_of_eq (hknows.resolves n)
      have hasked := hask.orUnresolved
      by_cases hknown : known n = true
      · rw [if_pos hknown] at hasked
        by_cases hn : n ∈ acc.kept
        · -- a root already, which is no new name
          refine ⟨acc, ∅, ?_, fun _ _ _ _ hnew => absurd hn (hnew n (.head _))⟩
          apply hasked.empty_bind
          simp only [if_pos hn]
          exact yields_pure acc
        · -- a root from now on
          refine ⟨_, .rooting n, ?_, fun _ _ h => h.keep hknown⟩
          apply hasked.empty_bind
          simp only [if_neg hn]
          exact (yields_addRoot n).bind_empty (yields_pure _)
      · -- no type has the name
        rw [if_neg hknown] at hasked
        refine ⟨{ acc with lost := acc.lost ++ [n] }, ∅, ?_,
          fun _ _ h => h.lose (Bool.eq_false_of_not_eq_true hknown)⟩
        apply hasked.empty_bind
        exact (yields_note _).empty_bind (yields_pure _)
  obtain ⟨rfl, rfl⟩ := hregisters hnames fun _ _ => List.not_mem_nil
  exact hyields

/-! ## §3 Metrics -/

/-- Whether the provider tells that a type has a modifier. -/
def carries (ctx : Context Unit) (modifier : String) (t : TypeName) : Bool :=
  match ((ctx.provider.modifiers t).run ()).1 with
  | .ok ms => decide (modifier ∈ ms)
  | .error _ => false

/-- Counted are the types of which the provider tells that they have the modifier. -/
theorem yields_countTypesWith (hknows : ctx.Knows known) (modifier : String) (ts : List TypeName) :
    ctx.Yields (ctx.countTypesWith modifier ts) (.ok (ts.countP (ctx.carries modifier))) ∅ := by
  induction ts with
  | nil => exact yields_pure 0
  | cons t ts ih =>
    have hcount : (t :: ts).countP (ctx.carries modifier) =
        (if ctx.carries modifier t = true then 1 else 0) + ts.countP (ctx.carries modifier) := by
      rw [List.countP_cons, Nat.add_comm]
    unfold countTypesWith
    rw [hcount]
    rcases hknows.tells t with ⟨ms, hms⟩ | ⟨u, hu⟩
    · have hcarries : ctx.carries modifier t = decide (modifier ∈ ms) := by rw [carries, hms]
      simp only [hcarries, decide_eq_true_eq]
      exact (yields_ask_of_eq hms).orUnresolved.empty_bind (ih.empty_bind (yields_pure _))
    · -- a type that does not resolve counts for nothing
      have hcarries : ctx.carries modifier t = false := by rw [carries, hu]
      simp only [hcarries, Bool.false_eq_true, if_false]
      exact (yields_ask_of_eq hu).orUnresolved.empty_bind (ih.empty_bind (yields_pure _))

/-- What an exploration from a type adds. -/
def exploring (ctx : Context Unit) (bound : Bound) (t : TypeName) : Gain :=
  ((ctx.record t bound).exploration t bound).gain ctx.config.transitiveEdges

/-- The counts of associations are those of a type that can be described. -/
def Measured (ctx : Context Unit) (bound : Bound) (m : Metrics) : Prop :=
  ∃ rs, ctx.refs m.type = some rs ∧ m.directAssociations = rs.size ∧
    m.indirectAssociations = (reachable (ctx.record m.type bound).adjacency m.type).size

/-- The counts of references by modifier are those of the references that carry it, and the numbers
    of arguments those of the methods. -/
structure Tallies (ctx : Context Unit) (rs : NameSet) (m : Metrics) : Prop where
  interfaces : m.interfaceTypes = rs.toList.countP (ctx.carries "interface")
  abstracts : m.abstractTypes = rs.toList.countP (ctx.carries "abstract")
  methodArgs : ∃ ms, ((ctx.provider.methods m.type).run ()).1 = .ok ms ∧
    m.methodArgs = ms.map fun method => (method.name, method.argCount)

/-- The metrics of a type that can be described add what an exploration from it does. -/
theorem exists_yields_metrics (hctx : ctx.Lawful) (hknows : ctx.Knows known) {t : TypeName}
    {rs : NameSet} (ht : ctx.refs t = some rs) {d : Int} {bound : Bound}
    (hb : Bound.ofInt? d = some bound) :
    ∃ m, ctx.Yields (ctx.metrics t (some d)) (.ok m) (ctx.exploring bound t) ∧ m.type = t ∧
      ctx.Measured bound m ∧ ctx.Tallies rs m := by
  obtain ⟨⟨ms, hms⟩, ⟨fs, hfs⟩, cs, hcs⟩ := hctx.members t rs ht
  have hmethods : ctx.Yields (Run.ask (ctx.provider.methods t)) (.ok ms) ∅ := yields_ask_of_eq hms
  have hfields : ctx.Yields (Run.ask (ctx.provider.fields t)) (.ok fs) ∅ := yields_ask_of_eq hfs
  have hconstructors : ctx.Yields (Run.ask (ctx.provider.constructors t)) (.ok cs) ∅ :=
    yields_ask_of_eq hcs
  have hclosure : ctx.Yields (ctx.closure t (some d))
      (.ok (reachable (ctx.record t bound).adjacency t)) (ctx.exploring bound t) :=
    (yields_explore hctx ⟨rs, ht⟩ hb).bind_empty (yields_pure _)
  have hinterfaces := yields_countTypesWith hknows "interface" rs.toList
  have habstracts := yields_countTypesWith hknows "abstract" rs.toList
  -- the exploration learns the references of its root as well
  have hroot : {t} ⊆ (ctx.exploring bound t).learned := by
    apply Set.singleton_subset_iff.2
    apply (finished_record hctx t bound).expands_iff_exists_walk.2
    exact ⟨⟨rs, ht⟩, 0, bound.admits_zero, .refl⟩
  rw [← Gain.learning_union_eq_self hroot]
  unfold metrics
  -- what is asked before the references and after the closure adds nothing
  exact ⟨_, hmethods.empty_bind (hfields.empty_bind ((yields_directReferences ht).bind
    (hclosure.bind_empty (hconstructors.empty_bind (hinterfaces.empty_bind
      (habstracts.empty_bind (yields_pure _))))))), rfl,
    ⟨rs, ht, rfl, rfl⟩, ⟨rfl, rfl, ms, hms, rfl⟩⟩

/-- From a type that cannot be described nothing is explored. -/
theorem exploring_eq_empty (hctx : ctx.Lawful) {t : TypeName} (ht : ctx.refs t = none)
    (bound : Bound) : ctx.exploring bound t = ∅ := by
  have hexpands : ∀ u,
      ¬ ((ctx.record t bound).exploration t bound).adjacency.expands u = true := by
    intro u hu
    obtain ⟨⟨rs, hrs⟩, n, -, hreach⟩ :=
      (finished_record hctx t bound).expands_iff_exists_walk.1 hu
    -- no walk sets out from `t`, so `u` could only be `t` itself
    cases n with
    | zero =>
      cases hreach
      rw [ht] at hrs
      cases hrs
    | succ n =>
      obtain ⟨rs', hrs'⟩ := hreach.exists_refs_start
      rw [ht] at hrs'
      cases hrs'
  unfold exploring Exploration.gain
  simp only [hexpands, Bool.false_eq_true, false_and, and_false]
  rfl

/-- The metrics of a type, as a new session tells them. -/
def row? (ctx : Context Unit) (d : Int) (t : TypeName) : Option Metrics :=
  ((ctx.metrics t (some d)).run Session.fresh).1.toOption

theorem exists_row? (hctx : ctx.Lawful) (hknows : ctx.Knows known) {t : TypeName} {rs : NameSet}
    (ht : ctx.refs t = some rs) {d : Int} {bound : Bound} (hb : Bound.ofInt? d = some bound) :
    ∃ m, ctx.row? d t = some m ∧
      ctx.Yields (ctx.metrics t (some d)) (.ok m) (ctx.exploring bound t) ∧ m.type = t ∧
      ctx.Measured bound m := by
  obtain ⟨m, hyields, htype, hm, -⟩ := exists_yields_metrics hctx hknows ht hb
  refine ⟨m, ?_, hyields, htype, hm⟩
  unfold row?
  rw [(hyields _ coherent_fresh).1]
  rfl

theorem row?_eq_none (hctx : ctx.Lawful) {t : TypeName} (ht : ctx.refs t = none) (d : Int) :
    ctx.row? d t = none := by
  unfold row?
  rw [(yields_metrics_unresolved hctx ht (some d) _ coherent_fresh).1]
  rfl

/-- Only a type that can be described has metrics, and they are its own. -/
theorem of_row?_eq_some (hctx : ctx.Lawful) (hknows : ctx.Knows known) {t : TypeName} {d : Int}
    {bound : Bound} (hb : Bound.ofInt? d = some bound) {m : Metrics} (hm : ctx.row? d t = some m) :
    m.type = t ∧ ctx.Measured bound m := by
  cases ht : ctx.refs t with
  | none => cases (row?_eq_none hctx ht d).symm.trans hm
  | some rs =>
    obtain ⟨m', hm', -, htype, hmeasured⟩ := exists_row? hctx hknows ht hb
    cases hm'.symm.trans hm
    exact ⟨htype, hmeasured⟩

/-- What is done for one root when roots are measured. -/
def measureRoot (ctx : Context Unit) (d : Int) (acc : Parted Metrics) (t : TypeName) :
    Run Unit (Parted Metrics) := do
  match ← Run.orUnresolved (ctx.metrics t (some d)) with
  | .ok m => return { acc with kept := acc.kept ++ [m] }
  | .error name =>
    Run.note (.skippingBlindRoot name)
    return { acc with lost := acc.lost ++ [t] }

theorem measureRoots_eq_foldlM (d : Int) (roots : List TypeName) :
    ctx.measureRoots d roots = roots.foldlM (ctx.measureRoot d) {} := rfl

/-- A root that cannot be described is passed over, whatever the depth. -/
theorem yields_measureRoot_unresolved (hctx : ctx.Lawful) {t : TypeName} (ht : ctx.refs t = none)
    (d : Int) (acc : Parted Metrics) :
    ctx.Yields (ctx.measureRoot d acc t) (.ok { acc with lost := acc.lost ++ [t] }) ∅ := by
  have hmetrics := (yields_metrics_unresolved hctx ht (some d)).orUnresolved
  exact hmetrics.empty_bind ((yields_note _).empty_bind (yields_pure _))

/-- After the metrics in `acc` those that a new session tells are kept as well and the types without
    any lost, and what is gained are the explorations from all types. -/
def Measures (ctx : Context Unit) (d : Int) (bound : Bound) (acc : Parted Metrics)
    (ts : List TypeName) (rows : Parted Metrics) (g : Gain) : Prop :=
  rows = ⟨acc.kept ++ ts.filterMap (ctx.row? d),
      acc.lost ++ ts.filter fun t => (ctx.row? d t).isNone⟩ ∧
    g = .all (ctx.exploring bound) ts

theorem measures_nil (d : Int) (bound : Bound) (acc : Parted Metrics) :
    ctx.Measures d bound acc [] acc ∅ := by
  unfold Measures
  rw [List.filterMap_nil, List.filter_nil, List.append_nil, List.append_nil, Gain.all_nil]
  exact ⟨rfl, rfl⟩

/-- Measuring roots keeps the metrics of those that can be described, and adds the explorations from
    all of them. -/
theorem yields_measureRoots (hctx : ctx.Lawful) (hknows : ctx.Knows known) {d : Int}
    {bound : Bound} (hb : Bound.ofInt? d = some bound) (roots : List TypeName) :
    ctx.Yields (ctx.measureRoots d roots)
      (.ok ⟨roots.filterMap (ctx.row? d), roots.filter fun t => (ctx.row? d t).isNone⟩)
      (.all (ctx.exploring bound) roots) := by
  obtain ⟨rows, g, hyields, rfl, rfl⟩ : ∃ rows g,
      ctx.Yields (ctx.measureRoots d roots) (.ok rows) g ∧
        ctx.Measures d bound {} roots rows g := by
    rw [measureRoots_eq_foldlM]
    apply exists_yields_foldlM
    case hnil => exact measures_nil d bound
    case hcons =>
      intro acc t ts
      cases ht : ctx.refs t with
      | some rs =>
        -- the gain of its metrics is that of the exploration
        obtain ⟨m, hrow, hmetrics, -⟩ := exists_row? hctx hknows ht hb
        refine ⟨{ acc with kept := acc.kept ++ [m] }, ctx.exploring bound t, ?_, ?_⟩
        · exact hmetrics.orUnresolved.bind_empty (yields_pure _)
        · rintro _ _ ⟨rfl, rfl⟩
          refine ⟨?_, (Gain.all_cons _ _ _).symm⟩
          simp [hrow]
      | none =>
        -- its metrics fail, and there is nothing to explore from it
        have hrow := row?_eq_none hctx ht d
        refine ⟨{ acc with lost := acc.lost ++ [t] }, ctx.exploring bound t, ?_, ?_⟩
        · rw [exploring_eq_empty hctx ht]
          exact yields_measureRoot_unresolved hctx ht d acc
        · rintro _ _ ⟨rfl, rfl⟩
          refine ⟨?_, (Gain.all_cons _ _ _).symm⟩
          simp [hrow]
  exact hyields

/-! ## §4 Analyses -/

/-- The roots of an analysis are the known ones among its names, each once. -/
def rootsAmong (known : TypeName → Bool) (names : List String) : List TypeName :=
  (cleanNames names).filter known

theorem mem_rootsAmong_iff {names : List String} {t : TypeName} :
    t ∈ rootsAmong known names ↔ t ∈ cleanNames names ∧ known t = true := List.mem_filter

/-- An analysis adds its roots to the graph, and no other ones. -/
theorem mem_roots_iff_of_gained {ts : List TypeName} {bound : Bound} {s s' : Session Unit}
    (h : ctx.Gained (⟨∅, ∅, {t | t ∈ ts}⟩ ∪ .all (ctx.exploring bound) ts) s s') (t : TypeName) :
    t ∈ s'.graph.roots ↔ t ∈ s.graph.roots ∨ t ∈ ts := by
  rw [h.roots]
  -- an exploration registers no roots
  apply or_congr_right
  apply or_iff_left
  intro hroot
  obtain ⟨_, -, hmem⟩ := hroot
  exact hmem

/-- In a coherent session an analysis succeeds. It tells what a new session tells of its roots, and
    the tables of the graph that it leaves, and adds its roots and the explorations from them. -/
theorem run_analysis (hctx : ctx.Lawful) (hknows : ctx.Knows known) {s : Session Unit}
    (hs : ctx.Coherent s) (names : List String) {depth : Option Int} {bound : Bound}
    (hb : Bound.ofInt? (ctx.depthOr depth) = some bound) :
    ∃ s', (ctx.analysis names depth).run s =
      (.ok { depth := ctx.depthOr depth
             metrics := (rootsAmong known names).filterMap (ctx.row? (ctx.depthOr depth))
             unresolved := ((cleanNames names).filter fun n => !known n) ++
               (rootsAmong known names).filter fun t => (ctx.row? (ctx.depthOr depth) t).isNone
             nodes := s'.graph.nodeRows
             edges := s'.graph.edgeRows }, s') ∧
      ctx.Gained (⟨∅, ∅, {t | t ∈ rootsAmong known names}⟩ ∪
        .all (ctx.exploring bound) (rootsAmong known names)) s s' := by
  have hroots := yields_registerRoots hknows (nodup_cleanNames names)
  have hrows := yields_measureRoots hctx hknows hb (rootsAmong known names)
  -- first the roots are registered, and then all explorations are done
  obtain ⟨s₁, hrun₁, hgain₁⟩ := hroots.exists_run hs
  obtain ⟨s₂, hrun₂, hgain₂⟩ := hrows.exists_run (hgain₁.coherent hs)
  refine ⟨s₂, ?_, hgain₁.trans hgain₂⟩
  unfold rootsAmong at hrun₂
  unfold analysis
  rw [Asking.run_bind_of_ok hrun₁, Asking.run_bind_of_ok hrun₂,
    Asking.run_bind_of_ok (Run.run_graph s₂)]
  rfl

/-- In a coherent session an analysis succeeds. It registers the roots that its names resolve to,
    explores from each of them, and tells the metrics of those that can be described and the tables
    of the graph that it leaves. -/
theorem exists_run_analysis (hctx : ctx.Lawful) (hknows : ctx.Knows known) {s : Session Unit}
    (hs : ctx.Coherent s) (names : List String) {depth : Option Int} {bound : Bound}
    (hb : Bound.ofInt? (ctx.depthOr depth) = some bound) :
    ∃ a s', (ctx.analysis names depth).run s = (.ok a, s') ∧
      a.nodes = s'.graph.nodeRows ∧ a.edges = s'.graph.edgeRows ∧
      (∀ t, t ∈ s'.graph.roots ↔ t ∈ s.graph.roots ∨ (t ∈ cleanNames names ∧ known t = true)) ∧
      (∀ e, e ∈ s'.graph.edges ↔ e ∈ s.graph.edges ∨
        ∃ t, (t ∈ cleanNames names ∧ known t = true) ∧ (ctx.exploring bound t).Draws ctx e) ∧
      (∀ t, t ∈ a.roots ↔
        (t ∈ cleanNames names ∧ known t = true) ∧ ∃ rs, ctx.refs t = some rs) ∧
      ∀ m ∈ a.metrics, ctx.Measured bound m := by
  obtain ⟨s', hrun, hgain⟩ := run_analysis hctx hknows hs names hb
  simp only [← mem_rootsAmong_iff]
  refine ⟨_, s', hrun, rfl, rfl, ?roots, ?edges, ?analysed, ?measured⟩
  case roots => exact mem_roots_iff_of_gained hgain
  case edges =>
    intro e
    rw [hgain.edges, ← Gain.draws_all_iff]
    -- registering a root draws no edges
    have hempty : ∀ g : Gain, (⟨∅, ∅, {t | t ∈ rootsAmong known names}⟩ ∪ g : Gain).Draws ctx e ↔
        g.Draws ctx e := by
      intro g
      show e ∈ ∅ ∪ g.edges ∨ (e.source ∈ ∅ ∪ g.learned ∧ _) ↔ _
      rw [Set.empty_union, Set.empty_union]
      exact Iff.rfl
    rw [hempty]
  case analysed =>
    intro t
    show t ∈ ((rootsAmong known names).filterMap _).map Metrics.type ↔ _
    simp only [List.mem_map, List.mem_filterMap]
    apply Iff.intro
    · rintro ⟨m, ⟨u, hu, hrow⟩, rfl⟩
      obtain ⟨rfl, rs, hrs, -⟩ := of_row?_eq_some hctx hknows hb hrow
      exact ⟨hu, rs, hrs⟩
    · rintro ⟨ht, rs, hrs⟩
      obtain ⟨m, hrow, -, htype, -⟩ := exists_row? hctx hknows hrs hb
      exact ⟨m, ⟨t, ht, hrow⟩, htype⟩
  case measured =>
    intro m hm
    obtain ⟨u, -, hrow⟩ := List.mem_filterMap.1 hm
    exact (of_row?_eq_some hctx hknows hb hrow).2

end Context

namespace TypeIndex

/-- An index resolves the names that it describes, also those of blind types. -/
theorem knows_context (x : TypeIndex) (blind : List TypeName) (config : Config) :
    (x.context blind config).Knows x.contains where
  resolves n := by
    show ((if x.contains n = true then pure n else throw (.unresolved n) :
      Asking Unit TypeName).run ()).1 = _
    split
    case isTrue => rfl
    case isFalse => rfl
  tells t := by
    by_cases ht : x.Describes blind t
    · obtain ⟨hblind, d, hd⟩ := describes_iff_exists_find?.1 ht
      exact .inl ⟨_, congrArg Prod.fst (run_unlessBlind_describing modifiersOf hd hblind)⟩
    · exact .inr ⟨t, congrArg Prod.fst (run_unlessBlind_describing_of_not modifiersOf ht)⟩

end TypeIndex

end TypeAtlas
