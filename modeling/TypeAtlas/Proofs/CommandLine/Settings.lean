import TypeAtlas.CommandLine.Sources
import TypeAtlas.Proofs.Analysis.Gains
import TypeAtlas.Proofs.Session.Failures

/-!
# Settings and default depths

The depth of the settings stands in for every depth that a question leaves out, and it is looked at
once, when the settings are read. A settings file either gives settings whose depth is a bound or a
complaint, whatever it holds. So under settings that were read no question fails for a depth that it
does not name.

Main statement: `CommandLine.settings_guard_depth`.
-/

namespace TypeAtlas

/-! ## §1 What a settings file says of the depth -/

namespace Bound

theorem neg_one_le_toInt (b : Bound) : -1 ≤ b.toInt := by
  cases b with
  | unbounded => exact Int.le_refl _
  | upTo n => exact Int.le_trans (by decide) (Int.natCast_nonneg n)

end Bound

namespace Config

/-- The depth that a file with an object of settings writes, or minus one if it leaves it out. -/
def writtenDepth? (bs : Octets) : Option Int :=
  (Json.object {} member (fun _ p => .ok p) [] (Json.Document.ofOctets bs).root).toOption.map
    Parts.depth

variable {bs : Octets}

/-- The depth of the settings in a file is the one that is written there, and that is a bound. -/
theorem writtenDepth?_of_ofOctets {c : Config} (h : ofOctets bs = .ok c) :
    writtenDepth? bs = some c.depth.toInt := by
  unfold ofOctets at h
  dsimp only at h
  split at h
  case h_1 => cases h
  case h_2 parts hparts =>
    -- the parts have been read, and their depth is a bound
    unfold complete at h
    cases hb : Bound.ofInt? parts.depth with
    | none =>
      rw [hb] at h
      cases h
    | some b =>
      rw [hb] at h
      dsimp only at h
      split at h
      case isFalse => cases h
      case isTrue =>
        cases h
        rw [writtenDepth?, hparts]
        exact congrArg some (Bound.toInt_of_ofInt? hb).symm

/-- A depth that is no bound is refused, whatever else the file holds and whatever follows it. -/
theorem ofOctets_eq_depth {d : Int} (h : writtenDepth? bs = some d) (hd : d < -1) :
    ofOctets bs = .error (.depth d) := by
  unfold writtenDepth? at h
  cases hparts : Json.object {} member (fun _ p => .ok p) [] (Json.Document.ofOctets bs).root with
  | error fault =>
    rw [hparts] at h
    cases h
  | ok parts =>
    rw [hparts] at h
    cases h
    simp [ofOctets, hparts, complete, Bound.ofInt?_eq_none_iff.2 hd]

end Config

/-! ## §2 Questions without a depth -/

namespace Context

variable {ctx : Context Unit} {s : Session Unit}

theorem ofInt?_depthOr_none (ctx : Context Unit) :
    Bound.ofInt? (ctx.depthOr none) = some ctx.config.depth := Bound.ofInt?_toInt _

theorem FailsFor.ok_or_unresolved {α : Type} {m : Run Unit α} {describable : Prop}
    {root : TypeName} {depth : Int} (h : FailsFor describable root depth m s)
    (hdepth : -1 ≤ depth) :
    (∃ a, (m.run s).1 = .ok a) ∨ (m.run s).1 = .error (.unresolved root) := by
  by_cases hroot : describable
  · exact .inl (h.answered hdepth hroot)
  · exact .inr ((h.unresolved root).2 ⟨hdepth, hroot, rfl⟩)

/-- Questions without a depth have answers at the session, unless the type that they are about
    cannot be described. Analyses always have one. -/
structure Answers (ctx : Context Unit) (s : Session Unit) : Prop where
  closure : ∀ t, (∃ ts, ((ctx.closure t none).run s).1 = .ok ts) ∨
    ((ctx.closure t none).run s).1 = .error (.unresolved t)
  tree : ∀ t, (∃ c, ((ctx.closureTree t none).run s).1 = .ok c) ∨
    ((ctx.closureTree t none).run s).1 = .error (.unresolved t)
  metrics : ∀ t, (∃ m, ((ctx.metrics t none).run s).1 = .ok m) ∨
    ((ctx.metrics t none).run s).1 = .error (.unresolved t)
  analysis : ∀ names, ∃ a, ((ctx.analysis names none).run s).1 = .ok a

theorem answers (hctx : ctx.Lawful) {known : TypeName → Bool} (hknows : ctx.Knows known)
    (hs : ctx.Coherent s) : ctx.Answers s where
  closure t :=
    ((failsFor_explore hctx hs t _).map Exploration.types).ok_or_unresolved
      ctx.config.depth.neg_one_le_toInt
  tree t :=
    ((failsFor_explore hctx hs t _).map ClosureTree.ofExploration).ok_or_unresolved
      ctx.config.depth.neg_one_le_toInt
  metrics t := by
    cases ht : ctx.refs t with
    | none => exact .inr (yields_metrics_unresolved hctx ht none s hs).1
    | some rs =>
      -- an absent depth is that of the settings, for metrics as for their closure
      obtain ⟨m, hyields, -⟩ := exists_yields_metrics hctx hknows ht ctx.ofInt?_depthOr_none
      exact .inl ⟨m, (hyields s hs).1⟩
  analysis names := by
    obtain ⟨s', hrun, -⟩ := run_analysis hctx hknows hs names ctx.ofInt?_depthOr_none
    exact ⟨_, congrArg Prod.fst hrun⟩

end Context

/-! ## §3 Settings of commands -/

namespace CommandLine

theorem eq_ok_of_toOption {ε α : Type} {x : Except ε α} {a : α} (h : x.toOption = some a) :
    x = .ok a := by
  cases x with
  | error e => cases h
  | ok b => exact congrArg Except.ok (Option.some.inj h)

/-- The words of a complaint about the settings file at a path. -/
def ConfigComplaint (p : FilePath) (words : String) : Prop :=
  ∃ reason, words = "Cannot read config " ++ p.text ++ ": " ++ reason ∨
    words = "Invalid config " ++ p.text ++ ": " ++ reason

/-- What is loaded of the settings at a path: a complaint, or settings whose depth is the one that
    the file writes and a bound. A file that writes another depth is complained of. -/
structure Loads (tree : FileTree) (p : FilePath) (loaded : Except Stop Config) : Prop where
  outcome : (∃ words, loaded = .error (.complaint words) ∧ ConfigComplaint p words) ∨
    ∃ bs c, tree.read p = .ok bs ∧ loaded = .ok c ∧
      Config.writtenDepth? bs = some c.depth.toInt ∧ -1 ≤ c.depth.toInt
  refused : ∀ bs d, tree.read p = .ok bs → Config.writtenDepth? bs = some d → d < -1 →
    loaded = .error (.complaint ("Invalid config " ++ p.text ++ ": " ++
      ("depth must be -1 (unbounded) or >= 0, got " ++ toString d)))

theorem loads_loadConfig (around : Surroundings) (p : FilePath) :
    Loads around.tree p (loadConfig around p) where
  outcome := by
    unfold loadConfig
    split
    case h_1 => exact .inl ⟨_, rfl, _, .inl rfl⟩
    case h_2 bs hread =>
      split
      case h_1 => exact .inl ⟨_, rfl, _, .inr rfl⟩
      case h_2 c hc =>
        exact .inr ⟨bs, c, hread, rfl, Config.writtenDepth?_of_ofOctets hc,
          c.depth.neg_one_le_toInt⟩
  refused := by
    intro bs d hread hwrites hd
    have hconfig := Config.ofOctets_eq_depth hwrites hd
    unfold loadConfig
    rw [hread]
    dsimp only
    rw [hconfig]
    rfl

/-- A command has the settings that were loaded, but for the recording of edges, or it complains of
    its settings file. -/
theorem settings_eq_or (around : Surroundings) (sources : Sources) :
    (∃ p words, sources.config = some p ∧ loadConfig around p = .error (.complaint words) ∧
      sources.settings around = .error (.complaint words)) ∨
    ∃ config, sources.settings around = .ok config := by
  unfold Sources.settings
  cases sources.config with
  | none => exact .inr ⟨_, rfl⟩
  | some p =>
    rcases (loads_loadConfig around p).outcome with ⟨words, hload, -⟩ | ⟨bs, c, -, hload, -⟩
    · exact .inl ⟨p, words, rfl, hload, by simp only [hload]; rfl⟩
    · exact .inr ⟨_, by simp only [hload]; rfl⟩

/-- Loading settings gives a complaint or settings with a bound, whatever the file holds and even if
    there is none. Under the settings of a command, those for direct edges included, questions about
    the types of an index that name no depth have answers in every session that steps lead to,
    unless the type itself cannot be described. -/
theorem settings_guard_depth (around : Surroundings) :
    (∀ p, Loads around.tree p (loadConfig around p)) ∧
    ∀ sources : Sources,
      (∃ p words, sources.config = some p ∧ loadConfig around p = .error (.complaint words) ∧
        sources.settings around = .error (.complaint words)) ∨
      ∃ config, sources.settings around = .ok config ∧
        ∀ (x : TypeIndex) (blind : List TypeName) (s : Session Unit),
          (x.context blind config).Reached s → (x.context blind config).Answers s := by
  refine ⟨loads_loadConfig around, ?_⟩
  intro sources
  refine (settings_eq_or around sources).imp_right ?_
  rintro ⟨config, hsettings⟩
  refine ⟨config, hsettings, ?_⟩
  intro x blind s hs
  have hctx := TypeIndex.lawful_context x blind config
  exact Context.answers hctx (TypeIndex.knows_context x blind config) (hs.coherent hctx)

/-- Two settings files, one with a depth that is no bound. -/
def settingsTree : FileTree where
  files := [(["near.json"], Text.encode "\x7b\"depth\": 0\x7d"),
    (["far.json"], Text.encode "\x7b\"depth\": -2\x7d")]

/-- The sources of a command with the file that has a bound, and with direct edges. -/
def nearSources : Sources where
  config := some { parts := ["near.json"] }
  directEdges := true

theorem settings_guard_depth_settingsTree :
    loadConfig { tree := settingsTree } { parts := ["far.json"] } =
        .error (.complaint ("Invalid config far.json: " ++
          "depth must be -1 (unbounded) or >= 0, got -2")) ∧
      ∃ config, nearSources.settings { tree := settingsTree } = .ok config ∧
        config.depth = .upTo 0 ∧
        config.transitiveEdges = false ∧
        (TypeIndex.ring.context ["C"] config).Answers
          ((TypeIndex.ring.context ["C"] config).after Session.fresh [.explore "A" none]) := by
  obtain ⟨hload, hsettings⟩ := settings_guard_depth { tree := settingsTree }
  have hnear : nearSources.settings { tree := settingsTree } =
      .ok { depth := .upTo 0, transitiveEdges := false } :=
    eq_ok_of_toOption (by decide +kernel)
  have hread : settingsTree.read { parts := ["far.json"] } =
      .ok (Text.encode "\x7b\"depth\": -2\x7d") :=
    eq_ok_of_toOption (by decide +kernel)
  have hdepth : Config.writtenDepth? (Text.encode "\x7b\"depth\": -2\x7d") = some (-2) := by
    decide +kernel
  refine ⟨?refused, _, hnear, rfl, rfl, ?answers⟩
  case refused =>
    rw [(hload _).refused _ _ hread hdepth (by decide)]
    decide +kernel
  case answers =>
    rcases hsettings nearSources with ⟨p, words, -, -, hcomplaint⟩ | ⟨config, hconfig, hanswers⟩
    · cases hnear.symm.trans hcomplaint
    · cases hnear.symm.trans hconfig
      exact hanswers _ _ _ ⟨_, rfl⟩

end CommandLine

end TypeAtlas
