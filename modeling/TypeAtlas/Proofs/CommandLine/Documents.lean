import TypeAtlas.Proofs.Closure.Reachability
import TypeAtlas.Proofs.CommandLine.Complaints
import TypeAtlas.Proofs.Files.Writing
import TypeAtlas.Proofs.Report.Plain

/-!
# Answers as documents

A command that is asked for JSON, with a schema and settings that can be read, writes one document
and nothing else, whatever the name that it is asked about stands for. The document reads back as
the JSON form of the answer, and the exit status tells whether there was one. The exception is a
closure tree with more levels than the call stack has room for: it breaks the command off, and
nothing is written.

Main statement: `CommandLine.output_of_json`.
-/

namespace TypeAtlas

namespace CommandLine

open Console Json

/-! ## §1 What is told -/

/-- A question about a type has an answer in a new session, and the value is its JSON form. -/
inductive Query.Tells (ctx : Context Unit) (stack : CallStack) (t : TypeName) :
    Query → Json → Prop where
  | resolve : Tells ctx stack t .resolve (typeToJson t)
  | refs {depth : Option Bound} {s s' : Session Unit} {n : Neighbourhood} :
      (exploreIf ctx t depth).run Session.fresh = (.ok (), s) →
      (ctx.neighbourhood t).run s = (.ok n, s') → Tells ctx stack t (.refs depth) n.toJson
  | closure {depth : Option Bound} {s : Session Unit} {c : ClosureTree} {v : Json} :
      (ctx.closureTree t (depth.map Bound.toInt)).run Session.fresh = (.ok c, s) →
      c.toJson? stack = some v → Tells ctx stack t (.closure depth) v
  | metrics {depth : Option Bound} {s : Session Unit} {m : Metrics} :
      (ctx.metrics t (depth.map Bound.toInt)).run Session.fresh = (.ok m, s) →
      Tells ctx stack t (.metrics depth) m.toJson
  | arguments {method : String} {s : Session Unit} {n : Nat} :
      (ctx.methodArgCount t method).run Session.fresh = (.ok n, s) →
      Tells ctx stack t (.arguments method)
        (.obj [("type", .str t), ("method", .str method), ("arguments", .nat n)])

/-- A question about a type is one for its closure, and the tree of it has more levels than the call
    stack has room for. -/
def Query.TooDeep (ctx : Context Unit) (stack : CallStack) (t : TypeName) (q : Query) : Prop :=
  ∃ depth c s, q = .closure depth ∧
    (ctx.closureTree t (depth.map Bound.toInt)).run Session.fresh = (.ok c, s) ∧ ¬ c.Fits stack

/-- The value and the exit status are what a question comes to when its name stands for the given
    types. Several types are an answer to no other question than which ones they are. -/
inductive Query.Settled (ctx : Context Unit) (stack : CallStack) (name : String) (q : Query) :
    List TypeName → Json → Nat → Prop where
  | missing : Settled ctx stack name q []
      (.obj [("error", .str "Type not found"), ("query", .str name)]) 1
  | unique {t : TypeName} {v : Json} : q.Tells ctx stack t v → Settled ctx stack name q [t] v 0
  | listed {ts : List TypeName} :
      2 ≤ ts.length → q = .resolve → Settled ctx stack name q ts (candidatesToJson ts) 0
  | ambiguous {ts : List TypeName} :
      2 ≤ ts.length → q ≠ .resolve → Settled ctx stack name q ts (candidatesToJson ts) 1

/-- The value and the exit status are what a request about the types of an index comes to. -/
inductive Request.Settled (around : Surroundings) (index : TypeIndex) (config : Config) :
    Request → Json → Nat → Prop where
  | query {name : String} {q : Query} {v : Json} {status : Nat} :
      q.Settled (index.context [] config) around.stack name (index.search name) v status →
      Settled around index config (.query name q) v status
  | analyze {roots : FilePath} {depth : Option Bound} {output : Option FilePath} {bs : Octets}
      {text : String} {a : Analysis} {s : Session Unit} :
      around.tree.read roots = .ok bs → Text.decode? bs = some text →
      ((index.context [] config).analysis (rootNames text) (depth.map Bound.toInt)).run
        Session.fresh = (.ok a, s) →
      Settled around index config (.analyze roots depth output)
        (a.withFiles (Analysis.tablePaths (output.getD (FilePath.ofString config.outputDir)))) 0

/-- A request is one for the closure of the one type that a name stands for, and the tree of it has
    more levels than the call stack has room for. -/
def Request.TooDeep (around : Surroundings) (index : TypeIndex) (config : Config) (r : Request) :
    Prop :=
  ∃ name q t, r = .query name q ∧ index.search name = [t] ∧
    q.TooDeep (index.context [] config) around.stack t

/-- A request is settled with status one exactly if it is about a name that stands for no type, or
    for several where one is asked for. -/
theorem Request.Settled.status_eq_one_iff {around : Surroundings} {index : TypeIndex}
    {config : Config} {r : Request} {v : Json} {status : Nat}
    (h : r.Settled around index config v status) :
    (status = 1 ∨ status = 0) ∧ (status = 1 ↔ ∃ name q, r = .query name q ∧
      (index.search name = [] ∨ (q ≠ .resolve ∧ 2 ≤ (index.search name).length))) := by
  cases h with
  | analyze => simp
  | @query name q _ _ h =>
    generalize hts : index.search name = ts at h
    cases h with
    | missing => simp [hts]
    | unique => simp [hts]
    | listed hlength hq =>
      have hne : ts ≠ [] := List.ne_nil_of_length_pos (by omega)
      simp [hts, hne, hq]
    | ambiguous hlength hq => simp [hts, hlength, hq]

/-- A question that has an answer to be told has no tree that is too deep. -/
theorem Query.Tells.not_tooDeep {ctx : Context Unit} {stack : CallStack} {t : TypeName} {q : Query}
    {v : Json} (h : q.Tells ctx stack t v) : ¬ q.TooDeep ctx stack t := by
  rintro ⟨depth, c, s, rfl, hrun, hdeep⟩
  cases h with
  | closure hrun' hv =>
    cases hrun.symm.trans hrun'
    exact hdeep (ClosureTree.toJson?_eq_some_iff.1 hv).1

theorem Request.Settled.not_tooDeep {around : Surroundings} {index : TypeIndex} {config : Config}
    {r : Request} {v : Json} {status : Nat} (h : r.Settled around index config v status) :
    ¬ r.TooDeep around index config := by
  rintro ⟨name, q, t, rfl, hname, hdeep⟩
  cases h with
  | query h =>
    rw [hname] at h
    cases h with
    | unique htells => exact htells.not_tooDeep hdeep
    | listed hlength => exact absurd hlength (by simp)
    | ambiguous hlength => exact absurd hlength (by simp)

/-! ## §2 Replies -/

section Replies

variable {index : TypeIndex} {config : Config} {stack : CallStack} {name : String} {q : Query}
  {t : TypeName}

theorem run_orComplain {question : Run Unit Reply} {s s' : Session Unit} {reply : Reply}
    (h : question.run s = (.ok reply, s')) : (orComplain question).run s = (.ok reply, s') := by
  have htold : (Run.orUnresolved question).run s = (.ok (.ok reply), s') := by
    rw [Run.run_orUnresolved, h]
    rfl
  unfold orComplain
  rw [Asking.run_bind_of_ok htold]
  rfl

theorem exists_run_exploreIf (config : Config) (ht : index.Describes [] t) (depth : Option Bound) :
    ∃ s, (exploreIf (index.context [] config) t depth).run Session.fresh = (.ok (), s) ∧
      (index.context [] config).Coherent s := by
  cases depth with
  | none => exact ⟨Session.fresh, rfl, Context.coherent_fresh⟩
  | some bound =>
    obtain ⟨s, hrun, hgain⟩ :=
      TypeIndex.exists_run_explore (s := Session.fresh) ⟨[], rfl⟩ ht (Bound.ofInt?_toInt bound)
    refine ⟨s, ?_, hgain.coherent Context.coherent_fresh⟩
    unfold exploreIf
    rw [Asking.run_bind_of_ok hrun]
    rfl

theorem exists_run_of_fst {α : Type} {m : Run Unit α} {s : Session Unit} {a : α}
    (h : (m.run s).1 = .ok a) : ∃ s', m.run s = (.ok a, s') := ⟨_, Prod.ext h rfl⟩

theorem run_resolution (s : Session Unit) :
    ((index.context [] config).resolution name).run s =
      (.ok { query := name, candidates := index.search name }, s) := rfl

theorem run_reply_of_nil {json : Bool} (hname : index.search name = []) (s : Session Unit) :
    (q.reply (index.context [] config) stack json name).run s =
      (.ok { blocks := notFoundBlocks json name, status := 1 }, s) := by
  cases q <;> simp only [Query.reply, onUnique] <;>
    (rw [Asking.run_bind_of_ok (run_resolution s)]; simp only [hname]; rfl)

theorem run_reply_of_many {u : TypeName} {ts : List TypeName}
    (hname : index.search name = t :: u :: ts) (s : Session Unit) :
    (q.reply (index.context [] config) stack true name).run s =
      (.ok { blocks := candidateBlocks true (t :: u :: ts),
             status := if q = .resolve then 0 else 1 }, s) := by
  cases q <;> simp only [Query.reply, onUnique] <;>
    (rw [Asking.run_bind_of_ok (run_resolution s)]; simp only [hname]; rfl)

/-- A question about a unique type is asked about the one that the name stands for. -/
theorem run_onUnique (hname : index.search name = [t]) (question : TypeName → Run Unit Reply)
    (s : Session Unit) :
    (onUnique (index.context [] config) true name question).run s = (question t).run s := by
  unfold onUnique
  rw [Asking.run_bind_of_ok (run_resolution s)]
  simp only [hname]

theorem ofInt?_depthOr (ctx : Context Unit) (depth : Option Bound) :
    Bound.ofInt? (ctx.depthOr (depth.map Bound.toInt)) = some (depth.getD ctx.config.depth) := by
  cases depth with
  | none => exact ctx.ofInt?_depthOr_none
  | some bound => exact Bound.ofInt?_toInt bound

/-- A block tells a question about a type, or nothing if the answer is a tree that is too deep. -/
inductive Query.Blocks (ctx : Context Unit) (stack : CallStack) (t : TypeName) (q : Query) :
    Block → Prop where
  | document {v : Json} : q.Tells ctx stack t v → Plain v → Blocks ctx stack t q (.json v)
  | tooDeep : q.TooDeep ctx stack t → Blocks ctx stack t q .tooDeep

/-- The closure of a type is one block. -/
theorem exists_block_of_closure {ctx : Context Unit} (stack : CallStack) {depth : Option Bound}
    {s : Session Unit} {c : ClosureTree}
    (h : (ctx.closureTree t (depth.map Bound.toInt)).run Session.fresh = (.ok c, s)) :
    ∃ b, c.blocks stack true = [b] ∧ (Query.closure depth).Blocks ctx stack t b := by
  by_cases hfits : c.Fits stack
  · have hv := ClosureTree.toJson?_of_fits hfits
    refine ⟨.json c.toJson, ?_, .document (.closure h hv) c.plain_toJson⟩
    simp [ClosureTree.blocks, hv]
  · refine ⟨.tooDeep, ?_, .tooDeep ⟨depth, c, s, rfl, h, hfits⟩⟩
    simp [ClosureTree.blocks, ClosureTree.toJson?_of_not_fits hfits]

/-- A question about the one type that the name stands for has an answer: the type can be described,
    so nothing that is asked about it fails. -/
theorem exists_run_reply_of_unique (config : Config) (stack : CallStack) (q : Query)
    (hname : index.search name = [t]) :
    ∃ b s, (q.reply (index.context [] config) stack true name).run Session.fresh =
        (.ok { blocks := [b] }, s) ∧
      q.Blocks (index.context [] config) stack t b := by
  have hctx := TypeIndex.lawful_context index [] config
  have hfresh : (index.context [] config).Coherent Session.fresh := Context.coherent_fresh
  have ht : index.Describes [] t :=
    ⟨TypeIndex.contains_of_mem_search (hname ▸ List.mem_singleton.2 rfl), List.not_mem_nil⟩
  obtain ⟨rs, hrs⟩ : ∃ rs, (index.context [] config).refs t = some rs :=
    TypeIndex.exists_refs_context_iff.2 ht
  cases q with
  | resolve =>
    refine ⟨_, Session.fresh, ?_, .document .resolve (plain_typeToJson t)⟩
    simp only [Query.reply]
    rw [Asking.run_bind_of_ok (run_resolution _)]
    simp only [hname]
    rfl
  | refs depth =>
    obtain ⟨s, hexplored, hs⟩ := exists_run_exploreIf config ht depth
    obtain ⟨n, hn⟩ := Context.exists_run_neighbourhood hs hrs
    obtain ⟨s', hnear⟩ := exists_run_of_fst hn
    refine ⟨_, s', (run_onUnique hname _ _).trans (run_orComplain ?_),
      .document (.refs hexplored hnear) n.plain_toJson⟩
    rw [Asking.run_bind_of_ok hexplored, Asking.run_bind_of_ok hnear]
    rfl
  | closure depth =>
    obtain ⟨s, hexplored, -⟩ := TypeIndex.exists_run_explore ⟨[], rfl⟩ ht (ofInt?_depthOr _ depth)
    have htree : ((index.context [] config).closureTree t (depth.map Bound.toInt)).run
        Session.fresh = _ := Asking.run_bind_of_ok hexplored
    obtain ⟨b, hblocks, hb⟩ := exists_block_of_closure stack htree
    refine ⟨b, s, (run_onUnique hname _ _).trans (run_orComplain ?_), hb⟩
    rw [Asking.run_bind_of_ok htree, ← hblocks]
    rfl
  | metrics depth =>
    -- the metrics of a depth that is left out are those of the depth in the settings
    obtain ⟨m, hyields, -⟩ := Context.exists_yields_metrics hctx
      (TypeIndex.knows_context index [] config) hrs (ofInt?_depthOr _ depth)
    have hm : (((index.context [] config).metrics t (depth.map Bound.toInt)).run
        Session.fresh).1 = .ok m := (hyields _ hfresh).1
    obtain ⟨s, hmetrics⟩ := exists_run_of_fst hm
    refine ⟨_, s, (run_onUnique hname _ _).trans (run_orComplain ?_),
      .document (.metrics hmetrics) m.plain_toJson⟩
    rw [Asking.run_bind_of_ok hmetrics]
    rfl
  | arguments method =>
    obtain ⟨⟨ms, hms⟩, -⟩ := hctx.members t rs hrs
    have hasked : (Run.orUnresolved
        (Run.ask ((index.context [] config).provider.methods t))).run Session.fresh =
        (.ok (.ok ms), Session.fresh) := by
      rw [Run.run_orUnresolved, Run.run_ask]
      exact Prod.ext (congrArg Run.told hms) rfl
    have hcount : ((index.context [] config).methodArgCount t method).run Session.fresh = _ :=
      Asking.run_bind_of_ok hasked
    refine ⟨_, Session.fresh, (run_onUnique hname _ _).trans ?_, .document (.arguments hcount) ?_⟩
    · rw [Asking.run_bind_of_ok hcount]
      rfl
    · exact plain_obj ["type", "method", "arguments"] rfl (by decide)
        (by simp [Plain.str, plain_nat])

theorem plain_notFound (name : String) :
    Plain (.obj [("error", .str "Type not found"), ("query", .str name)]) :=
  plain_obj ["error", "query"] rfl (by decide) (by simp [Plain.str])

/-- A block and an exit status are what a request comes to: the value of it, or nothing if that is a
    tree that is too deep. -/
inductive Request.Blocks (around : Surroundings) (index : TypeIndex) (config : Config)
    (r : Request) : Block → Nat → Prop where
  | document {v : Json} {status : Nat} :
      r.Settled around index config v status → Plain v →
      Blocks around index config r (.json v) status
  | tooDeep : r.TooDeep around index config → Blocks around index config r .tooDeep 0

/-- Every question about a name has a reply of one block. -/
theorem exists_run_reply (around : Surroundings) (index : TypeIndex) (config : Config)
    (name : String) (q : Query) :
    ∃ b status s,
      (q.reply (index.context [] config) around.stack true name).run Session.fresh =
        (.ok { blocks := [b], status := status }, s) ∧
      (Request.query name q).Blocks around index config b status := by
  -- the name stands for no type, for one, or for several
  cases hname : index.search name with
  | nil =>
    refine ⟨_, 1, _, run_reply_of_nil hname _, .document (.query ?_) (plain_notFound name)⟩
    rw [hname]
    exact .missing
  | cons t rest =>
    cases rest with
    | nil =>
      obtain ⟨b, s, hrun, hb⟩ := exists_run_reply_of_unique config around.stack q hname
      refine ⟨b, 0, s, hrun, ?_⟩
      cases hb with
      | document htells hv => exact .document (.query (hname ▸ .unique htells)) hv
      | tooDeep hdeep => exact .tooDeep ⟨name, q, t, rfl, hname, hdeep⟩
    | cons u ts =>
      have hseveral : 2 ≤ (t :: u :: ts).length := by simp
      refine ⟨_, _, _, run_reply_of_many hname _, .document (.query ?_) (plain_candidatesToJson _)⟩
      rw [hname]
      by_cases hq : q = .resolve
      · rw [if_pos hq]
        exact .listed hseveral hq
      · rw [if_neg hq]
        exact .ambiguous hseveral hq

end Replies

/-! ## §3 Outcomes -/

variable {around : Surroundings} {i : Invocation} {config : Config} {p : FilePath}
  {index : TypeIndex}

/-- An analysis finds its list of roots, which is well-formed text, and a directory for its
    tables. -/
def Request.Served (tree : FileTree) (config : Config) (r : Request) : Prop :=
  ∀ roots depth output, r = .analyze roots depth output →
    (∃ bs text, tree.read roots = .ok bs ∧ Text.decode? bs = some text) ∧
      Writable tree (output.getD (FilePath.ofString config.outputDir))

theorem loadRoots_eq {tree : FileTree} {roots : FilePath} {bs : Octets} {text : String}
    (hread : tree.read roots = .ok bs) (htext : Text.decode? bs = some text) :
    loadRoots tree roots = .ok (rootNames text) := by
  unfold loadRoots rootNames?
  rw [hread]
  dsimp only
  rw [htext]
  rfl

/-- A question about the types of an index is asked in a new session. -/
theorem ask_schema {α : Type} (question : {σ : Type} → Context σ → Run σ α) {a : α}
    {s : Session Unit} (h : (question (index.context [] config)).run Session.fresh = (.ok a, s)) :
    Source.ask (.schema index) config question = (.ok a, s.log) :=
  congrArg (fun e => (e.1, e.2.log)) h

theorem queryResponse_eq {stack : CallStack} {json : Bool} {name : String} {q : Query}
    {reply : Reply} {s : Session Unit}
    (h : (q.reply (index.context [] config) stack json name).run Session.fresh = (.ok reply, s)) :
    queryResponse stack (.schema index) config json name q =
      { ending := .exit reply.status, blocks := reply.blocks, log := s.log } := by
  have hask := ask_schema (fun ctx => q.reply ctx stack json name) h
  unfold queryResponse
  rw [hask]

theorem analysisResponse_eq {tree : FileTree} {names : List String} {depth : Option Bound}
    {directory : FilePath} (hwritable : Writable tree directory) {a : Analysis} {s : Session Unit}
    (h : ((index.context [] config).analysis names (depth.map Bound.toInt)).run Session.fresh =
      (.ok a, s)) :
    ∃ written, analysisResponse tree (.schema index) config true names depth directory =
      { ending := .exit 0, blocks := [.json (a.withFiles (Analysis.tablePaths directory))],
        log := s.log, written } := by
  have hask := ask_schema (fun ctx => ctx.analysis names (depth.map Bound.toInt)) h
  have hexport : exportTables tree a directory = ((exportTables tree a directory).1, none) :=
    Prod.ext rfl (hwritable.exportTables_snd a)
  refine ⟨(exportTables tree a directory).1, ?_⟩
  unfold analysisResponse
  rw [hask]
  dsimp only
  rw [hexport]
  rfl

/-- What a response with one document and an exit status looks like from outside. -/
theorem outcome_of_document {r : Response} {v : Json} {status : Nat}
    (hblocks : r.blocks = [.json v])
    (hending : r.ending = .exit status) (d : Device) (log : Option Bool) :
    (r.outcome d log).status = status ∧ (r.outcome d log).crash = none ∧
      (r.outcome d log).output = v.render ++ "\n" := by
  have hwrite : write d r.blocks = ⟨v.render ++ "\n", none⟩ := by
    rw [hblocks]
    simp [write, Block.text]
  simp [Response.outcome, hwrite, hending]

/-- A response that is too deep breaks off without a word. -/
theorem outcome_of_tooDeep {r : Response} (hblocks : r.blocks = [.tooDeep]) (d : Device)
    (log : Option Bool) :
    (r.outcome d log).status = 1 ∧ (r.outcome d log).crash = some (.output .tooDeep) ∧
      (r.outcome d log).output = "" := by
  have hwrite : write d r.blocks = ⟨"", some .tooDeep⟩ := by
    rw [hblocks]
    simp [write, Block.text]
  simp [Response.outcome, hwrite]

/-- A request that is served is responded to with one block, and only analyses write files. -/
theorem AsksSchema.exists_response (h : AsksSchema around i config p) (hjson : i.json = true)
    (hload : loadSchema around config p = .ok (.schema index))
    (hserved : i.request.Served around.tree config) :
    ∃ r b status, i.response around = .ok r ∧ r.blocks = [b] ∧ r.ending = .exit status ∧
      i.request.Blocks around index config b status ∧
      (∀ name q, i.request = .query name q → r.written = []) := by
  have hsource := h.source_eq.trans hload
  cases hrequest : i.request with
  | query name q =>
    obtain ⟨b, status, s, hrun, hb⟩ := exists_run_reply around index config name q
    have hresponse : i.response around =
        .ok { ending := .exit status, blocks := [b], log := s.log } := by
      unfold Invocation.response
      simp only [hrequest, h.settings, hsource, hjson, bind, Except.bind]
      exact congrArg Except.ok (queryResponse_eq hrun)
    exact ⟨_, b, status, hresponse, rfl, rfl, hb, fun _ _ _ => rfl⟩
  | analyze roots depth output =>
    -- the list of roots can be read, and the tables can be written
    obtain ⟨⟨bs, text, hread, htext⟩, hwritable⟩ := hserved roots depth output hrequest
    have hctx := TypeIndex.lawful_context index [] config
    obtain ⟨s, hrun, -⟩ := Context.run_analysis hctx (TypeIndex.knows_context index [] config)
      Context.coherent_fresh (rootNames text) (ofInt?_depthOr _ depth)
    obtain ⟨written, hanalysis⟩ := analysisResponse_eq hwritable hrun
    have hresponse : i.response around =
        .ok (analysisResponse around.tree (.schema index) config true (rootNames text) depth
          (output.getD (FilePath.ofString config.outputDir))) := by
      unfold Invocation.response
      simp only [hrequest, h.roots roots depth output hrequest, h.settings, hsource,
        loadRoots_eq hread htext, hjson, bind, Except.bind, if_true]
      rfl
    rw [hanalysis] at hresponse
    exact ⟨_, _, 0, hresponse, rfl, rfl,
      .document (.analyze hread htext hrun) (Analysis.plain_withFiles _ _), nofun⟩

/-- A command that is asked for JSON about the types of a schema, with settings and a schema that
    can be read, writes one document and a line break and nothing else, unless it is asked for a
    closure tree with more levels than the call stack has room for. Read back, the document is the
    JSON form of what the request comes to: the types that a name stands for, the answer about the
    one type, the analysis with the paths of its tables, or the name that stands for no type. The
    exit status is one for such a name, and for one that stands for several types where the question
    is not which ones; otherwise it is zero. For a tree that is too deep the command breaks off with
    status one, and writes nothing. -/
theorem output_of_json {words : List String} (hwords : Invocation.ofWords? words = some i)
    (hjson : i.json = true) (hasks : AsksSchema around i config p)
    (hload : loadSchema around config p = .ok (.schema index))
    (hserved : i.request.Served around.tree config) :
    ∃ o, run? around words = some o ∧
      (¬ i.request.TooDeep around index config →
        ∃ v, o.crash = none ∧ v.IsDocument o.output ∧
          i.request.Settled around index config v o.status ∧ (o.status = 1 ∨ o.status = 0) ∧
          (o.status = 1 ↔ ∃ name q, i.request = .query name q ∧
            (index.search name = [] ∨ (q ≠ .resolve ∧ 2 ≤ (index.search name).length)))) ∧
      (i.request.TooDeep around index config →
        o.crash = some (.output .tooDeep) ∧ o.status = 1 ∧ o.output = "" ∧ o.written = []) := by
  obtain ⟨r, b, status, hresponse, hblocks, hending, hb, hwritten⟩ :=
    hasks.exists_response hjson hload hserved
  have hrun : run? around words = some (r.outcome around.device i.log) := by
    rw [run?, hwords, Option.map_some, Invocation.outcome, hresponse]
  refine ⟨_, hrun, ?_⟩
  cases hb with
  | @document v _ hsettled hv =>
    refine ⟨fun _ => ⟨v, ?_⟩, fun hdeep => absurd hdeep hsettled.not_tooDeep⟩
    obtain ⟨hstatus, hcrash, houtput⟩ := outcome_of_document hblocks hending around.device i.log
    rw [houtput, hstatus]
    exact ⟨hcrash, isDocument_render hv, hsettled, hsettled.status_eq_one_iff⟩
  | tooDeep hdeep =>
    refine ⟨fun hfits => absurd hdeep hfits, fun _ => ?_⟩
    obtain ⟨hstatus, hcrash, houtput⟩ := outcome_of_tooDeep hblocks around.device i.log
    obtain ⟨name, q, -, hrequest, -⟩ := hdeep
    exact ⟨hcrash, hstatus, houtput, hwritten name q hrequest⟩

/-- Two types with the same last component, one of which implements the other. -/
def namesakes : Schema where
  types := [{ name := "p.A", implements := ["q.A"] }, { name := "q.A" }]

/-- What a file with the two types holds. -/
def namesakesText : Octets :=
  Text.encode ("\x7b\"types\": [\x7b\"name\": \"p.A\", \"implements\": [\"q.A\"]\x7d, " ++
    "\x7b\"name\": \"q.A\"\x7d]\x7d")

/-- That file, and one with a list of roots. -/
def namesakesTree : FileTree where
  files := [(["r.txt"], Text.encode "p.A\n"), (["s.json"], namesakesText)]

private theorem eq_ok_of_parts {ε : Type} {x : Except ε Schema} {s : Schema}
    (hparts : x.toOption.map (fun s => (s.version, s.primitives, s.types)) =
      some (s.version, s.primitives, s.types))
    (hmetadata : x.toOption.map (fun s => s.metadata.length) = some 0) (hs : s.metadata = []) :
    x = .ok s := by
  obtain ⟨version, metadata, primitives, types⟩ := s
  cases x with
  | error e => cases hparts
  | ok s' =>
    obtain ⟨version', metadata', primitives', types'⟩ := s'
    cases hs
    cases hparts
    cases List.length_eq_zero_iff.1 (Option.some.inj hmetadata)
    rfl

theorem loadSchema_namesakes {around : Surroundings} (htree : around.tree = namesakesTree)
    (hroom : around.hasRoom namesakesText = true) :
    loadSchema around {} { parts := ["s.json"] } =
      .ok (.schema (TypeIndex.ofSchema namesakes [])) := by
  have hread : namesakesTree.read { parts := ["s.json"] } = .ok namesakesText :=
    eq_ok_of_toOption (by decide +kernel)
  have hparsed : Schema.ofOctets namesakesText = .ok namesakes :=
    eq_ok_of_parts (by decide +kernel) (by decide +kernel) rfl
  unfold loadSchema
  rw [htree, FileTree.holds_of_read hread, hread]
  dsimp only
  rw [Surroundings.readSchema, if_pos hroom, hparsed]
  rfl

/-- What the two types are asked for, by the name that they share and as roots. -/
def namesakesInvocation (request : Request) (log : Option Bool) : Invocation where
  request
  sources := { schema := some { parts := ["s.json"] } }
  json := true
  log

/-- Surroundings with these files, and a call stack that has no room for a level. -/
def crampedSurroundings : Surroundings where
  tree := namesakesTree
  stack := { converting := 0 }

theorem tooDeep_namesakes :
    (namesakesInvocation (.query "p.A" (.closure none)) (some false)).request.TooDeep
      crampedSurroundings (TypeIndex.ofSchema namesakes []) {} := by
  have hsearch : (TypeIndex.ofSchema namesakes []).search "p.A" = ["p.A"] := by decide +kernel
  have hlevels : ((((TypeIndex.ofSchema namesakes []).context [] {}).closureTree "p.A" none).run
      Session.fresh).1.toOption.map (fun c => ClosureEntry.levels c.entries) = some 1 := by
    decide +kernel
  obtain ⟨c, hc, hone⟩ := Option.map_eq_some_iff.1 hlevels
  obtain ⟨s, hrun⟩ := exists_run_of_fst (eq_ok_of_toOption hc)
  refine ⟨"p.A", .closure none, "p.A", rfl, hsearch, none, c, s, rfl, hrun, fun hfits => ?_⟩
  have hroom : ClosureEntry.levels c.entries ≤ 0 := hfits.2
  omega

/-- The references of the one or the other type are refused with both names, an analysis of the one
    is told, and its closure is not where the call stack has no room for it. -/
theorem output_of_json_namesakes :
    (∃ o, run? { tree := namesakesTree } ["refs", "A", "-s", "s.json", "--json"] = some o ∧
      o.crash = none ∧ o.status = 1 ∧
      (candidatesToJson ["p.A", "q.A"]).IsDocument o.output) ∧
    (∃ o a, run? { tree := namesakesTree } ["analyze", "r.txt", "-j", "-s", "s.json"] = some o ∧
      o.crash = none ∧ o.status = 0 ∧
      Json.IsDocument (Analysis.withFiles a (Analysis.tablePaths {})) o.output) ∧
    ∃ o, run? crampedSurroundings ["closure", "p.A", "-s", "s.json", "--json"] = some o ∧
      o.crash = some (.output .tooDeep) ∧ o.status = 1 ∧ o.output = "" := by
  refine ⟨?refused, ?told, ?cramped⟩
  case refused =>
    have hwords : Invocation.ofWords? ["refs", "A", "-s", "s.json", "--json"] =
        some (namesakesInvocation (.query "A" (.refs none)) none) := by decide +kernel
    have hasks : AsksSchema { tree := namesakesTree }
        (namesakesInvocation (.query "A" (.refs none)) none) {} { parts := ["s.json"] } :=
      ⟨nofun, rfl, rfl, rfl⟩
    have hsearch : (TypeIndex.ofSchema namesakes []).search "A" = ["p.A", "q.A"] := by
      decide +kernel
    obtain ⟨o, hrun, htold, -⟩ :=
      output_of_json hwords rfl hasks (loadSchema_namesakes rfl rfl) nofun
    have hrefs : ¬ (namesakesInvocation (.query "A" (.refs none)) none).request.TooDeep
        { tree := namesakesTree } (TypeIndex.ofSchema namesakes []) {} := by
      rintro ⟨_, _, _, ⟨⟩, _, _, _, _, hclosure, _⟩
      cases hclosure
    obtain ⟨v, hcrash, hdocument, hsettled, -⟩ := htold hrefs
    refine ⟨o, hrun, hcrash, ?_⟩
    generalize o.status = status at hsettled ⊢
    cases hsettled with
    | query hsettled =>
      rw [hsearch] at hsettled
      cases hsettled with
      | listed _ hq => cases hq
      | ambiguous => exact ⟨rfl, hdocument⟩
  case told =>
    have hwords : Invocation.ofWords? ["analyze", "r.txt", "-j", "-s", "s.json"] =
        some (namesakesInvocation (.analyze { parts := ["r.txt"] } none none) (some false)) := by
      decide +kernel
    have hroots : namesakesTree.read { parts := ["r.txt"] } = .ok (Text.encode "p.A\n") :=
      eq_ok_of_toOption (by decide +kernel)
    have hasks : AsksSchema { tree := namesakesTree }
        (namesakesInvocation (.analyze { parts := ["r.txt"] } none none) (some false)) {}
        { parts := ["s.json"] } := by
      refine ⟨?_, rfl, rfl, rfl⟩
      intro roots depth output h
      cases h
      exact FileTree.holds_of_read hroots
    have hserved : (namesakesInvocation (.analyze { parts := ["r.txt"] } none none)
        (some false)).request.Served namesakesTree {} := by
      intro roots depth output h
      cases h
      have hwritable : Writable namesakesTree {} := ⟨by decide +kernel, _, rfl, by decide +kernel⟩
      exact ⟨⟨_, "p.A\n", hroots, by decide +kernel⟩, hwritable⟩
    obtain ⟨o, hrun, htold, -⟩ :=
      output_of_json hwords rfl hasks (loadSchema_namesakes rfl rfl) hserved
    obtain ⟨v, hcrash, hdocument, hsettled, -⟩ := htold nofun
    refine ⟨o, ?_⟩
    generalize o.status = status at hsettled ⊢
    cases hsettled with
    | analyze => exact ⟨_, hrun, hcrash, rfl, hdocument⟩
  case cramped =>
    have hwords : Invocation.ofWords? ["closure", "p.A", "-s", "s.json", "--json"] =
        some (namesakesInvocation (.query "p.A" (.closure none)) (some false)) := by decide +kernel
    have hasks : AsksSchema crampedSurroundings
        (namesakesInvocation (.query "p.A" (.closure none)) (some false)) {}
        { parts := ["s.json"] } :=
      ⟨nofun, rfl, rfl, rfl⟩
    obtain ⟨o, hrun, -, hbroken⟩ :=
      output_of_json hwords rfl hasks (loadSchema_namesakes rfl rfl) nofun
    obtain ⟨hcrash, hstatus, houtput, -⟩ := hbroken tooDeep_namesakes
    exact ⟨o, hrun, hcrash, hstatus, houtput⟩

end CommandLine

end TypeAtlas
