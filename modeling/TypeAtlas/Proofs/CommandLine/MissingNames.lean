import TypeAtlas.Proofs.CommandLine.Documents

/-!
# Names that stand for no type

A question about a name that stands for no type ends with status one, writes no files and logs
nothing. What it tells is a line with the name in it, but the name is put between two tags as it is,
so it is told as it was asked for only if it has no tags itself, no backslash before a bracket and
no code for a symbol, and if the line fits into the columns of the console. A name such as
`list[int]` is told without its brackets, a long one is told on two lines, and one such as `a[/]`
closes the tag around it too early and breaks the command off.

Main statement: `CommandLine.outcome_of_missing_name`.
-/

namespace TypeAtlas

namespace CommandLine

open Console

/-! ## §1 The line -/

theorem notFoundBlocks_eq (name : String) :
    notFoundBlocks false name = [.line (inRed ("Type not found: " ++ name))] := by
  rw [inRed, ← String.append_assoc]
  rfl

/-- The line with the name is written, or its tags are not in order and nothing is written. -/
theorem write_notFoundBlocks_cases (d : Device) (name : String) :
    (∃ text, write d (notFoundBlocks false name) = ⟨text, none⟩) ∨
      write d (notFoundBlocks false name) = ⟨"", some .brokenMarkup⟩ := by
  rw [notFoundBlocks_eq]
  cases htext : (Block.line (inRed ("Type not found: " ++ name))).text d with
  | ok text => simp [write, htext]
  | error fault =>
    cases text_line_of_error htext
    simp [write, htext]

/-- The name is told as it stands if and only if it has no tags, escapes and known codes, and the
    line with it fits. -/
theorem write_notFoundBlocks_eq_iff (d : Device) {name : String}
    (hname : ∀ c ∈ name.toList, isPlaced c = true) :
    write d (notFoundBlocks false name) = ⟨"Type not found: " ++ name ++ "\n", none⟩ ↔
      Markup.isVerbatim name.toList = true ∧
        (∀ body ∈ Markup.codes name.toList, d.symbols.ofCode? body = none) ∧
        Fits d.columns ("Type not found: " ++ name).toList := by
  have hwords : isShown "Type not found: ".toList = true := by decide
  have hplaced : ∀ c ∈ ("Type not found: " ++ name).toList, isPlaced c = true := by
    rw [String.toList_append]
    exact List.forall_mem_append.2 ⟨isPlaced_of_isShown hwords, hname⟩
  have hwidth : 0 < Text.width ("Type not found: " ++ name).toList := by
    have hfirst : 0 < Text.width "Type not found: ".toList := by decide
    rw [String.toList_append, Text.width_append]
    omega
  have htold := text_inRed_eq_iff (d := d) hplaced hwidth
  rw [String.toList_append, isVerbatim_append hwords, codes_append hwords,
    ← String.toList_append] at htold
  rw [← htold, notFoundBlocks_eq]
  cases htext : (Block.line (inRed ("Type not found: " ++ name))).text d with
  | ok text => simp [write, htext]
  | error fault => simp [write, htext]

/-! ## §2 The command -/

variable {around : Surroundings} {i : Invocation} {config : Config} {p : FilePath}
  {index : TypeIndex}

/-- A question about a name that stands for no type is responded to with the line alone. -/
theorem AsksSchema.response_of_missing (h : AsksSchema around i config p)
    (hload : loadSchema around config p = .ok (.schema index)) {name : String} {q : Query}
    (hrequest : i.request = .query name q) (hmissing : index.search name = []) :
    i.response around =
      .ok { ending := .exit 1, blocks := notFoundBlocks i.json name, log := [] } := by
  have hsource := h.source_eq.trans hload
  unfold Invocation.response
  simp only [hrequest, h.settings, hsource, bind, Except.bind]
  exact congrArg Except.ok (queryResponse_eq (run_reply_of_nil hmissing Session.fresh))

/-- A command that asks about a name for which the search in a schema finds nothing, and not for
    JSON, ends with status one, writes no files and logs nothing, whatever it asks. If all
    characters of the name take their place on a line, then it tells the name as it was asked for
    and does not break off if and only if no bracket in the name opens a tag, no backslash in it
    stands before a bracket or at the end, the console knows no symbol for a code in it, and the
    line fits into the columns of the console. In any case it breaks off for no other reason than
    tags in the name, and then without a word. -/
theorem outcome_of_missing_name {words : List String} (hwords : Invocation.ofWords? words = some i)
    {name : String} {q : Query} (hrequest : i.request = .query name q) (hjson : i.json = false)
    (hasks : AsksSchema around i config p)
    (hload : loadSchema around config p = .ok (.schema index))
    (hmissing : index.search name = []) (hname : ∀ c ∈ name.toList, isPlaced c = true) :
    ∃ o, run? around words = some o ∧ o.status = 1 ∧ o.written = [] ∧ o.log = [] ∧
      ((o.crash = none ∧ o.output = "Type not found: " ++ name ++ "\n") ↔
        Markup.isVerbatim name.toList = true ∧
          (∀ body ∈ Markup.codes name.toList, around.device.symbols.ofCode? body = none) ∧
          Fits around.device.columns ("Type not found: " ++ name).toList) ∧
      (o.crash = none ∨ o.crash = some (.output .brokenMarkup) ∧ o.output = "") := by
  have hresponse := hasks.response_of_missing hload hrequest hmissing
  have hrun : run? around words = some (Response.outcome
      { ending := .exit 1, blocks := notFoundBlocks false name, log := [] } around.device
      i.log) := by
    rw [run?, hwords, Option.map_some, Invocation.outcome, hresponse, hjson]
  have hlog : ∀ verbose, logLines verbose [] = [] := fun _ => rfl
  refine ⟨_, hrun, ?_⟩
  rw [← write_notFoundBlocks_eq_iff around.device hname]
  unfold Response.outcome
  -- the tags are in order, or else nothing is written
  rcases write_notFoundBlocks_cases around.device name with ⟨text, hwrite⟩ | hwrite
  · rw [hwrite]
    cases i.log <;> simp [hlog]
  · rw [hwrite]
    cases i.log <;> simp [hlog]

/-- What is asked about a name of the two types that share a last component. -/
def missingInvocation (name : String) (q : Query) : Invocation where
  request := .query name q
  sources := { schema := some { parts := ["s.json"] } }

/-- A narrow console that knows one symbol. -/
def carDevice : Device where
  columns := 30
  symbols := ⟨fun name => if name = "car" then some ['🚗'] else none, by
    intro name cs h c hc
    split at h
    · cases h
      cases List.mem_singleton.1 hc
      decide
    · cases h⟩

/-- The files with the two types, before that console. -/
def carSurroundings : Surroundings where
  tree := namesakesTree
  device := carDevice

/-- A name with a number in brackets is told. One with a word in brackets is not, nor is one with
    the name of a symbol between colons, nor one that is too long for the console, and one that
    closes a tag too many breaks the command off without a word. -/
theorem outcome_of_missing_name_namesakes :
    (∃ o, run? carSurroundings ["resolve", "x[1]", "-s", "s.json"] = some o ∧
      o.status = 1 ∧ o.crash = none ∧ o.output = "Type not found: x[1]\n") ∧
    ∀ name ∈ ["list[int]", "a:car:", "com.example.Engine", "a[/]"],
      ∃ o, run? carSurroundings ["refs", name, "-s", "s.json"] = some o ∧
        o.status = 1 ∧ ¬ (o.crash = none ∧ o.output = "Type not found: " ++ name ++ "\n") := by
  have hasks : ∀ name q, AsksSchema carSurroundings (missingInvocation name q) {}
      { parts := ["s.json"] } := fun name q => ⟨nofun, rfl, rfl, rfl⟩
  refine ⟨?number, ?others⟩
  case number =>
    have hwords : Invocation.ofWords? ["resolve", "x[1]", "-s", "s.json"] =
        some (missingInvocation "x[1]" .resolve) := by decide +kernel
    obtain ⟨o, hrun, hstatus, -, -, htold, -⟩ := outcome_of_missing_name hwords rfl rfl
      (hasks _ _) (loadSchema_namesakes rfl rfl) (by decide +kernel)
      (List.all_eq_true.1 (by decide))
    obtain ⟨hcrash, houtput⟩ := htold.2 (by decide +kernel)
    exact ⟨o, hrun, hstatus, hcrash, houtput⟩
  case others =>
    have hfails : ∀ name ∈ ["list[int]", "a:car:", "com.example.Engine", "a[/]"],
        ¬ (Markup.isVerbatim name.toList = true ∧
          (∀ body ∈ Markup.codes name.toList, carDevice.symbols.ofCode? body = none) ∧
          Fits carDevice.columns ("Type not found: " ++ name).toList) := by
      refine List.forall_mem_cons.2 ⟨?word, List.forall_mem_cons.2 ⟨?symbol,
        List.forall_mem_cons.2 ⟨?long, List.forall_mem_cons.2 ⟨?closing, nofun⟩⟩⟩⟩
      case word => exact fun h => absurd h.1 (by decide +kernel)
      case symbol =>
        exact fun h => absurd (h.2.1 ['c', 'a', 'r'] (by decide +kernel)) (by decide +kernel)
      case long => exact fun h => absurd h.2.2.width (by decide +kernel)
      case closing => exact fun h => absurd h.1 (by decide +kernel)
    intro name hname
    have hwords : Invocation.ofWords? ["refs", name, "-s", "s.json"] =
        some (missingInvocation name (.refs none)) := by
      revert name
      decide +kernel
    have hmissing : (TypeIndex.ofSchema namesakes []).search name = [] := by
      revert name
      decide +kernel
    have hplaced : name.toList.all isPlaced = true := by
      revert name
      decide +kernel
    obtain ⟨o, hrun, hstatus, -, -, htold, -⟩ := outcome_of_missing_name hwords rfl rfl
      (hasks _ _) (loadSchema_namesakes rfl rfl) hmissing (List.all_eq_true.1 hplaced)
    exact ⟨o, hrun, hstatus, fun h => hfails name hname (htold.1 h)⟩

end CommandLine

end TypeAtlas
