import TypeAtlas.Proofs.Session.Invariant

/-!
# What becomes of the names of an analysis

Every name that an analysis is given is looked at once, and comes to one of three ends: it is a root
with metrics, no type has it, or its type cannot be described. The last two are reported, and a
warning is logged for each of them. Nothing else that an analysis does is logged as a warning.

Main statements: `Context.warned_analysis` and `TypeIndex.analysis_accounts_for_names`.
-/

namespace TypeAtlas

/-! ## §1 Warnings -/

theorem logLines_append (verbose : Bool) (log log' : List Notice) :
    logLines verbose (log ++ log') = logLines verbose log ++ logLines verbose log' := by
  unfold logLines
  rw [List.filter_append, List.map_append]

/-- The warnings in the log of the session are these lines. -/
def Session.Warned (lines : List String) (s : Session Unit) : Prop := logLines false s.log = lines

theorem Session.Warned.note {lines : List String} {s : Session Unit} (h : s.Warned lines)
    (n : Notice) : Session.Warned (lines ++ logLines false [n]) { s with log := s.log ++ [n] } := by
  unfold Session.Warned at h ⊢
  rw [logLines_append, h]

theorem logLines_skippingUnresolvedRoot (n : String) :
    logLines false [.skippingUnresolvedRoot n] =
      ["WARNING: Skipping unresolved root type: " ++ n] := by
  show ["WARNING: " ++ ("Skipping unresolved root type: " ++ n)] = _
  rw [← String.append_assoc]
  rfl

theorem logLines_skippingBlindRoot (n : String) :
    logLines false [.skippingBlindRoot n] =
      ["WARNING: Skipping root type without metadata: " ++ n] := by
  show ["WARNING: " ++ ("Skipping root type without metadata: " ++ n)] = _
  rw [← String.append_assoc]
  rfl

namespace Context

open Run (Keeps keeps_pure)

variable {ctx : Context Unit} {lines : List String}

/-- A notice that is no warning. -/
theorem keeps_warned_note {n : Notice} (hn : n.level = .debug) :
    Keeps (Session.Warned lines) (Run.note n) := by
  intro s hs
  have hnone : logLines false [n] = [] := by simp [logLines, hn]
  have hnoted := hs.note n
  rw [hnone, List.append_nil] at hnoted
  exact hnoted

theorem keeps_warned_ask {α : Type} (question : Asking Unit α) :
    Keeps (Session.Warned lines) (Run.ask question) := fun _ hs => hs

theorem keeps_warned_directReferences (t : TypeName) :
    Keeps (Session.Warned lines) (ctx.directReferences t) := by
  unfold directReferences
  refine Keeps.bind (fun _ hs => hs) fun s => ?_
  cases s.descriptors.get? t with
  | some rs => exact keeps_pure rs
  | none =>
    refine (keeps_warned_note rfl).bind fun _ => (keeps_warned_ask _).bind fun ns => ?_
    exact Keeps.bind (fun _ hs => hs) fun _ => keeps_pure _

theorem keeps_warned_walkStep (root : TypeName) (bound : Bound) (w : Walk) (t : TypeName)
    (k : Nat) : Keeps (Session.Warned lines) (ctx.walkStep root bound w t k) := by
  unfold walkStep
  split
  case isTrue =>
    apply (keeps_warned_directReferences t).orUnresolved.bind
    intro answer
    cases answer with
    | ok rs => exact keeps_pure _
    | error name =>
      -- a type that is skipped is no reason for a warning
      by_cases hroot : t = root
      · simp only [if_pos hroot]
        exact fun _ hs => hs
      · simp only [if_neg hroot]
        exact (keeps_warned_note rfl).bind fun _ => keeps_pure _
  case isFalse => exact keeps_pure _

theorem keeps_warned_walk (root : TypeName) (bound : Bound) (fuel : Nat) (w : Walk) :
    Keeps (Session.Warned lines) (ctx.walk root bound fuel w) := by
  induction fuel generalizing w with
  | zero => exact keeps_pure w
  | succ fuel ih =>
    unfold walk
    split
    case h_1 => exact keeps_pure w
    case h_2 t k _ _ => exact (keeps_warned_walkStep root bound w t k).bind fun w' => ih w'

theorem keeps_warned_explore (root : TypeName) (depth : Int) :
    Keeps (Session.Warned lines) (ctx.explore root depth) := by
  unfold explore
  split
  case h_1 bound _ =>
    unfold exploreWithin
    refine Keeps.bind (fun _ hs => hs) fun s => ?_
    refine (keeps_warned_walk root bound _ _).bind fun w => ?_
    cases ctx.config.transitiveEdges with
    | true => exact Keeps.bind (fun _ hs => hs) fun _ => keeps_pure _
    | false => exact keeps_pure _
  case h_2 => exact fun _ hs => hs

theorem keeps_warned_countTypesWith (modifier : String) (ts : List TypeName) :
    Keeps (Session.Warned lines) (ctx.countTypesWith modifier ts) := by
  induction ts with
  | nil => exact keeps_pure 0
  | cons t ts ih =>
    unfold countTypesWith
    apply (keeps_warned_ask _).orUnresolved.bind
    intro answer
    cases answer with
    | ok ms => exact ih.bind fun _ => keeps_pure _
    | error _ => exact ih.bind fun _ => keeps_pure _

/-- The metrics of a type are told without a warning. -/
theorem keeps_warned_metrics (t : TypeName) (depth : Option Int) :
    Keeps (Session.Warned lines) (ctx.metrics t depth) := by
  unfold metrics
  refine (keeps_warned_ask _).bind fun methods => ?_
  refine (keeps_warned_ask _).bind fun fields => ?_
  refine (keeps_warned_directReferences t).bind fun references => ?_
  refine ((keeps_warned_explore t _).bind fun _ => keeps_pure _).bind fun associated => ?_
  refine (keeps_warned_ask _).bind fun constructors => ?_
  refine (keeps_warned_countTypesWith _ _).bind fun interfaceTypes => ?_
  exact (keeps_warned_countTypesWith _ _).bind fun abstractTypes => keeps_pure _

end Context

/-! ## §2 One warning for each thing that is left out -/

namespace Run

variable {P : Session Unit → Prop} {β γ : Type}

/-- In every session with the property the question is answered and adds these lines to the
    warnings, and the property stays. -/
def Warns {α : Type} (P : Session Unit → Prop) (new : List String) (m : Run Unit α) : Prop :=
  ∀ s, P s → ∀ lines, s.Warned lines →
    ∃ a s', m.run s = (.ok a, s') ∧ P s' ∧ s'.Warned (lines ++ new)

/-- If each thing that is left out adds its line, and no other one does, all of them add the lines
    of those left out, in order. -/
theorem warns_foldlM {f : β → γ → Run Unit β} {out : γ → Bool} {line : γ → String}
    (hf : ∀ b c, Warns P (([c].filter out).map line) (f b c)) (cs : List γ) (b : β) :
    Warns P ((cs.filter out).map line) (cs.foldlM f b) := by
  induction cs generalizing b with
  | nil =>
    intro s hP lines hs
    refine ⟨b, s, rfl, hP, ?_⟩
    rwa [List.filter_nil, List.map_nil, List.append_nil]
  | cons c cs ih =>
    intro s hP lines hs
    -- the first thing adds its line or none, and the others add theirs behind it
    obtain ⟨b', s₁, hrun, hP₁, hs₁⟩ := hf b c s hP lines hs
    obtain ⟨b'', s₂, hrun', hP₂, hs₂⟩ := ih b' s₁ hP₁ _ hs₁
    refine ⟨b'', s₂, ?_, hP₂, ?_⟩
    · rw [List.foldlM_cons, Asking.run_bind_of_ok hrun, hrun']
    · rw [← List.singleton_append, List.filter_append, List.map_append, ← List.append_assoc]
      exact hs₂

end Run

namespace Context

open Run (Warns warns_foldlM)

variable {ctx : Context Unit} {known : TypeName → Bool}

/-- Registering roots warns of the names that are not known. -/
theorem warns_registerRoots (hknows : ctx.Knows known) (names : List String) :
    Warns (fun _ => True)
      ((names.filter fun n => !known n).map ("WARNING: Skipping unresolved root type: " ++ ·))
      (ctx.registerRoots names) := by
  unfold registerRoots
  apply warns_foldlM
  intro acc n s _ lines hs
  have hasked := Run.run_orUnresolved (Run.ask (ctx.provider.resolve n)) s
  rw [Run.run_ask, hknows.resolves] at hasked
  by_cases hknown : known n = true
  · rw [if_pos hknown] at hasked
    rw [Asking.run_bind_of_ok hasked, List.filter_cons_of_neg (by simp [hknown]), List.filter_nil,
      List.map_nil, List.append_nil]
    -- a root already, or one from now on
    by_cases hn : n ∈ acc.kept
    · simp only [if_pos hn]
      exact ⟨_, _, rfl, trivial, hs⟩
    · simp only [if_neg hn]
      exact ⟨_, _, rfl, trivial, hs⟩
  · -- no type has the name, and this is the only case with a warning
    rw [if_neg hknown] at hasked
    rw [Asking.run_bind_of_ok hasked, List.filter_cons_of_pos (by simp [hknown]), List.filter_nil,
      List.map_singleton, ← logLines_skippingUnresolvedRoot]
    exact ⟨_, _, rfl, trivial, hs.note _⟩

/-- Measuring roots warns of those that a new session tells no metrics of. -/
theorem warns_measureRoots (hctx : ctx.Lawful) (hknows : ctx.Knows known) {d : Int} {bound : Bound}
    (hb : Bound.ofInt? d = some bound) (roots : List TypeName) :
    Warns ctx.Coherent
      ((roots.filter fun t => (ctx.row? d t).isNone).map
        ("WARNING: Skipping root type without metadata: " ++ ·))
      (ctx.measureRoots d roots) := by
  unfold measureRoots
  apply warns_foldlM
  intro acc t s hcoherent lines hs
  have hasked := Run.run_orUnresolved (ctx.metrics t (some d)) s
  have hs' : Session.Warned lines ((ctx.metrics t (some d)).run s).2 :=
    keeps_warned_metrics t (some d) s hs
  cases ht : ctx.refs t with
  | some rs =>
    obtain ⟨m, hrow, hyields, -⟩ := exists_row? hctx hknows ht hb
    obtain ⟨s', hrun, hgain⟩ := hyields.exists_run hcoherent
    rw [hrun] at hasked hs'
    rw [Asking.run_bind_of_ok hasked, List.filter_cons_of_neg (by simp [hrow]), List.filter_nil,
      List.map_nil, List.append_nil]
    exact ⟨_, _, rfl, hgain.coherent hcoherent, hs'⟩
  | none =>
    -- the metrics fail on the type itself, so the warning is about its name
    obtain ⟨s', hrun, hgain⟩ := (yields_metrics_unresolved hctx ht (some d)).exists_run hcoherent
    rw [hrun] at hasked hs'
    rw [Asking.run_bind_of_ok hasked,
      List.filter_cons_of_pos (by simp [row?_eq_none hctx ht d]), List.filter_nil,
      List.map_singleton, ← logLines_skippingBlindRoot]
    refine ⟨_, _, rfl, ?_, hs'.note _⟩
    exact Gained.coherent (hgain.coherent hcoherent) (.of_eq rfl rfl)

/-- What an analysis warns of are the names that are not known, and then the roots that a new
    session tells no metrics of. -/
theorem warned_analysis (hctx : ctx.Lawful) (hknows : ctx.Knows known) {s s' : Session Unit}
    (hs : ctx.Coherent s) {names : List String} {depth : Option Int} {bound : Bound}
    (hb : Bound.ofInt? (ctx.depthOr depth) = some bound) {a : Analysis}
    (hrun : (ctx.analysis names depth).run s = (.ok a, s')) :
    logLines false s'.log = logLines false s.log ++
      (((cleanNames names).filter fun n => !known n).map
          ("WARNING: Skipping unresolved root type: " ++ ·) ++
        ((rootsAmong known names).filter fun t =>
            (ctx.row? (ctx.depthOr depth) t).isNone).map
          ("WARNING: Skipping root type without metadata: " ++ ·)) := by
  -- the roots that are measured are those that have been registered
  have hyields := yields_registerRoots hknows (nodup_cleanNames names)
  obtain ⟨s₁, hrun₁, hgain⟩ := hyields.exists_run hs
  obtain ⟨roots, s₁', hrun₁', -, hwarned₁⟩ :=
    warns_registerRoots hknows (cleanNames names) s trivial _ rfl
  cases hrun₁.symm.trans hrun₁'
  obtain ⟨rows, s₂, hrun₂, -, hwarned₂⟩ :=
    warns_measureRoots hctx hknows hb (rootsAmong known names) s₁ (hgain.coherent hs) _ hwarned₁
  unfold rootsAmong at hrun₂
  unfold analysis at hrun
  rw [Asking.run_bind_of_ok hrun₁, Asking.run_bind_of_ok hrun₂,
    Asking.run_bind_of_ok (Run.run_graph s₂)] at hrun
  cases hrun
  rw [← List.append_assoc]
  exact hwarned₂

/-! ## §3 Rows -/

/-- Which of its roots an analysis keeps may be read off its names. -/
theorem filter_rootsAmong {names : List String} {p q : TypeName → Bool}
    (h : ∀ t, known t = true → p t = q t) :
    (rootsAmong known names).filter p = (cleanNames names).filter fun n => known n && q n := by
  unfold rootsAmong
  rw [List.filter_filter]
  apply List.filter_congr
  intro n _
  cases hknown : known n with
  | false => simp
  | true => simp [h n hknown]

theorem map_type_filterMap_row? (hctx : ctx.Lawful) (hknows : ctx.Knows known) {d : Int}
    {bound : Bound} (hb : Bound.ofInt? d = some bound) (ts : List TypeName) :
    (ts.filterMap (ctx.row? d)).map Metrics.type = ts.filter fun t => (ctx.row? d t).isSome := by
  induction ts with
  | nil => rfl
  | cons t ts ih =>
    cases hrow : ctx.row? d t with
    | none => rw [List.filterMap_cons_none hrow, ih, List.filter_cons_of_neg (by simp [hrow])]
    | some m =>
      obtain ⟨htype, -⟩ := of_row?_eq_some hctx hknows hb hrow
      rw [List.filterMap_cons_some hrow, List.map_cons, ih, htype,
        List.filter_cons_of_pos (by simp [hrow])]

/-- What a new session tells of a type every coherent session tells. -/
theorem run_metrics_of_row?_eq_some (hctx : ctx.Lawful) (hknows : ctx.Knows known) {d : Int}
    {bound : Bound} (hb : Bound.ofInt? d = some bound) {t : TypeName} {m : Metrics}
    (hm : ctx.row? d t = some m) {s : Session Unit} (hs : ctx.Coherent s) :
    ((ctx.metrics t (some d)).run s).1 = .ok m := by
  cases ht : ctx.refs t with
  | none => cases (row?_eq_none hctx ht d).symm.trans hm
  | some rs =>
    obtain ⟨m', hm', hyields, -⟩ := exists_row? hctx hknows ht hb
    cases hm'.symm.trans hm
    exact (hyields s hs).1

end Context

theorem Analysis.isSome_metricsFor?_iff {a : Analysis} {n : TypeName} :
    (a.metricsFor? n).isSome = true ↔ n ∈ a.roots := by
  unfold Analysis.metricsFor? Analysis.roots
  simp only [List.find?_isSome, List.mem_map, beq_iff_eq]

/-! ## §4 Analyses over an index -/

open List in
/-- A list that is parted in three keeps its members. -/
theorem filter_append_filter_append_filter_perm {α : Type} (p q : α → Bool) (l : List α) :
    (l.filter (fun a => p a && !q a) ++
      (l.filter (fun a => !p a) ++ l.filter fun a => p a && q a)).Perm l := by
  have hparts := List.filter_append_perm q (l.filter p)
  simp only [List.filter_filter, Bool.and_comm (q _), Bool.and_comm (!q _)] at hparts
  rw [← List.append_assoc]
  calc
    _ ~ (l.filter fun a => p a && q a) ++ (l.filter (fun a => p a && !q a) ++
        l.filter fun a => !p a) := List.perm_append_comm
    _ = (l.filter fun a => p a && q a) ++ l.filter (fun a => p a && !q a) ++
        l.filter fun a => !p a := (List.append_assoc ..).symm
    _ ~ l.filter p ++ l.filter fun a => !p a := hparts.append_right _
    _ ~ l := List.filter_append_perm p l

namespace TypeIndex

variable {x : TypeIndex} {blind : List TypeName} {config : Config}

/-- Of the types of the index the blind ones have no metrics, and the other ones have. -/
theorem isNone_row?_context {d : Int} {bound : Bound} (hb : Bound.ofInt? d = some bound)
    {t : TypeName} (ht : x.contains t = true) :
    ((x.context blind config).row? d t).isNone = blind.contains t := by
  have hctx := lawful_context x blind config
  have hknows := knows_context x blind config
  by_cases hblind : t ∈ blind
  · have hnone : (x.context blind config).refs t = none :=
      refs_context_eq_none_iff.2 fun h => h.2 hblind
    simp [Context.row?_eq_none hctx hnone d, hblind]
  · have hdescribes : x.Describes blind t := ⟨ht, hblind⟩
    obtain ⟨rs, hrs⟩ := exists_refs_context_iff (x := x).2 hdescribes
    obtain ⟨m, hm, -⟩ := Context.exists_row? hctx hknows hrs hb
    simp [hm, hblind]

/-- The warning about a name that an analysis leaves out. -/
def warning (x : TypeIndex) (n : String) : String :=
  if x.contains n = true then "WARNING: Skipping root type without metadata: " ++ n
  else "WARNING: Skipping unresolved root type: " ++ n

/-- The names that are not in the index are warned of as unresolved, and the blind ones as types
    without metadata. -/
theorem map_warning_append (x : TypeIndex) (blind : List TypeName) (ns : List String) :
    ((ns.filter fun n => !x.contains n) ++
        ns.filter fun n => x.contains n && blind.contains n).map x.warning =
      (ns.filter fun n => !x.contains n).map ("WARNING: Skipping unresolved root type: " ++ ·) ++
        (ns.filter fun n => x.contains n && blind.contains n).map
          ("WARNING: Skipping root type without metadata: " ++ ·) := by
  rw [List.map_append]
  congr 1
  · apply List.map_congr_left
    intro n hn
    have hunknown := (List.mem_filter.1 hn).2
    unfold warning
    rw [if_neg (by simpa using hunknown)]
  · apply List.map_congr_left
    intro n hn
    have hblind := (List.mem_filter.1 hn).2
    unfold warning
    rw [if_pos (Bool.and_eq_true_iff.1 hblind).1]

/-- How the analysis `a`, which leads from the session `s` to `s'`, accounts for different names. -/
structure AccountsFor (x : TypeIndex) (blind : List TypeName) (config : Config) (ns : List String)
    (depth : Option Int) (s s' : Session Unit) (a : Analysis) : Prop where
  /-- The roots are the names in the index that are not blind, in order. -/
  roots : a.roots = ns.filter fun n => x.contains n && !blind.contains n
  /-- Each root has one row, in the same order: the metrics of the root, as they are told in every
      session that steps lead to. -/
  rows : List.Forall₂ (fun t m => ∀ s₁, (x.context blind config).Reached s₁ →
    (((x.context blind config).metrics t depth).run s₁).1 = .ok m) a.roots a.metrics
  /-- Left out are the names that are not in the index, and then the blind ones, each in order. -/
  unresolved : a.unresolved = (ns.filter fun n => !x.contains n) ++
    ns.filter fun n => x.contains n && blind.contains n
  /-- Each name is a root or left out, and that once. -/
  once : (a.roots ++ a.unresolved).Perm ns
  /-- Each name that is left out is warned of, in order, and nothing else is. -/
  warnings : logLines false s'.log = logLines false s.log ++ a.unresolved.map x.warning
  /-- The graph has as further roots the names in the index, also the blind ones. -/
  graph : ∀ t, t ∈ s'.graph.roots ↔ t ∈ s.graph.roots ∨ t ∈ ns ∧ x.contains t = true
  /-- A row is found by the name of a root, and by no other name. -/
  found : ∀ n, (a.metricsFor? n).isSome = true ↔ n ∈ a.roots

/-- From every session over an index that steps lead to, an analysis at a depth of at least minus
    one succeeds, and accounts for the names that it is given, without the blanks around them, each
    once and no empty one. -/
theorem analysis_accounts_for_names (x : TypeIndex) (blind : List TypeName) (config : Config)
    {s : Session Unit} (hs : (x.context blind config).Reached s) (names : List String)
    {depth : Option Int} (hdepth : -1 ≤ (x.context blind config).depthOr depth) :
    ∃ a s', ((x.context blind config).analysis names depth).run s = (.ok a, s') ∧
      x.AccountsFor blind config ((names.map Text.strip).filter (· != "")).eraseDups depth s s'
        a := by
  have hctx := lawful_context x blind config
  have hknows := knows_context x blind config
  obtain ⟨bound, hb⟩ := Bound.exists_ofInt?_eq_some hdepth
  rw [← TypeIndex.distinct_eq_eraseDups, ← cleanNames_eq]
  obtain ⟨s', hrun, hgain⟩ := Context.run_analysis hctx hknows (hs.coherent hctx) names hb
  have hwarned := Context.warned_analysis hctx hknows (hs.coherent hctx) hb hrun
  have hroots := Context.map_type_filterMap_row? hctx hknows hb
    (Context.rootsAmong x.contains names)
  -- which roots have no row is decided by blindness alone
  have hlost : ∀ t, x.contains t = true → ((x.context blind config).row?
      ((x.context blind config).depthOr depth) t).isNone = blind.contains t :=
    fun t ht => isNone_row?_context hb ht
  have hkept : ∀ t, x.contains t = true → ((x.context blind config).row?
      ((x.context blind config).depthOr depth) t).isSome = !blind.contains t := by
    intro t ht
    rw [← Option.not_isNone, hlost t ht]
  rw [Context.filter_rootsAmong hkept] at hroots
  rw [Context.filter_rootsAmong hlost] at hrun hwarned
  refine ⟨_, s', hrun, ?_⟩
  constructor
  case roots => exact hroots
  case rows =>
    show List.Forall₂ _ (List.map Metrics.type _) _
    rw [List.forall₂_map_left_iff, List.forall₂_same]
    intro m hm s₁ hs₁
    obtain ⟨t, -, hrow⟩ := List.mem_filterMap.1 hm
    obtain ⟨rfl, -⟩ := Context.of_row?_eq_some hctx hknows hb hrow
    exact Context.run_metrics_of_row?_eq_some hctx hknows hb hrow (hs₁.coherent hctx)
  case unresolved => rfl
  case once =>
    show (List.map Metrics.type _ ++ _).Perm _
    rw [hroots]
    exact filter_append_filter_append_filter_perm x.contains blind.contains _
  case warnings =>
    rw [map_warning_append]
    exact hwarned
  case graph =>
    intro t
    rw [← Context.mem_rootsAmong_iff]
    exact Context.mem_roots_iff_of_gained hgain t
  case found => exact fun n => Analysis.isSome_metricsFor?_iff

/-- Of five names two are the same type, one is empty, one is unknown and one is blind. -/
theorem analysis_accounts_for_names_ring :
    ∃ a s', ((ring.context ["C"] {}).analysis [" A ", "Z", "C", "A", ""] none).run
        ((ring.context ["C"] {}).after Session.fresh [.explore "B" none]) = (.ok a, s') ∧
      a.roots = ["A"] ∧ a.unresolved = ["Z", "C"] ∧
      logLines false s'.log = ["WARNING: Skipping unresolved root type: Z",
        "WARNING: Skipping root type without metadata: C"] := by
  have hdepth : -1 ≤ (ring.context ["C"] {}).depthOr none := by decide
  obtain ⟨a, s', hrun, haccounts⟩ :=
    analysis_accounts_for_names ring ["C"] {} ⟨[.explore "B" none], rfl⟩
      [" A ", "Z", "C", "A", ""] hdepth
  have hnames : (([" A ", "Z", "C", "A", ""].map Text.strip).filter (· != "")).eraseDups =
      ["A", "Z", "C"] := by decide +kernel
  rw [hnames] at haccounts
  have hunresolved : a.unresolved = ["Z", "C"] := haccounts.unresolved.trans (by decide +kernel)
  -- the exploration before it warns of nothing
  have hbefore : logLines false
      ((ring.context ["C"] {}).after Session.fresh [.explore "B" none]).log = [] := by
    decide +kernel
  have hwarnings := haccounts.warnings
  rw [hbefore, hunresolved] at hwarnings
  refine ⟨a, s', hrun, haccounts.roots.trans (by decide +kernel), hunresolved, ?_⟩
  exact hwarnings.trans (by decide +kernel)

end TypeIndex

end TypeAtlas
