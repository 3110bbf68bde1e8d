import TypeAtlas.CommandLine.Outcome
import TypeAtlas.Proofs.CommandLine.Settings
import TypeAtlas.Proofs.Console.Red
import TypeAtlas.Proofs.Schema.Faults

/-!
# Complaints about schemas

A command that is given a schema file with a fault writes no files and ends with status one. It
tells the fault, on as many lines as the console needs, unless the fault is a string without a text
or a text that is nested too deep: these two it does not foresee, and it breaks off without a word.
Files that are well-formed UTF-8 have no such string.

Main statement: `CommandLine.outcome_of_faulty_schema`.
-/

namespace TypeAtlas

theorem FileTree.holds_of_read {t : FileTree} {p : FilePath} {bs : Octets}
    (h : t.read p = .ok bs) : t.holds p = true := by
  unfold holds
  unfold read at h
  cases hfind : t.find p with
  | error fault =>
    rw [hfind] at h
    cases h
  | ok standing =>
    rw [hfind] at h
    cases standing with
    | file content => rfl
    | directory => cases h
    | nothing => cases h

namespace CommandLine

open Console

/-! ## §1 Complaints on the console -/

theorem complaintBlocks_eq (message : String) :
    complaintBlocks message = [.line (inRed ("Error: " ++ message))] := by
  rw [complaintBlocks, inRed, ← String.append_assoc]
  rfl

/-- A complaint that is shown as it stands is laid out on lines. -/
theorem write_complaintBlocks (d : Device) {message : String}
    (h : isShown message.toList = true) : write d (complaintBlocks message) =
      ⟨unlines (linesOf d.columns ("Error: " ++ message).toList), none⟩ := by
  have hshown : isShown ("Error: " ++ message).toList = true :=
    isShown_append_toList (by decide) h
  have hcodes : ∀ body ∈ Markup.codes ("Error: " ++ message).toList,
      d.symbols.ofCode? body = none := by
    rw [codes_of_isShown hshown]
    exact nofun
  have htext := text_inRed_of_isVerbatim (isPlaced_of_isShown hshown)
    (isVerbatim_of_isShown hshown) hcodes
  simp [complaintBlocks_eq, write, htext]

/-- It is one line if it fits. -/
theorem unlines_linesOf_of_fits {columns : Nat} {line : String}
    (hshown : isShown line.toList = true) (hwidth : 0 < Text.width line.toList)
    (hfits : Fits columns line.toList) : unlines (linesOf columns line.toList) = line ++ "\n" := by
  rw [linesOf_of_forall (hfits.columns_ne_zero hwidth) (isPlaced_of_isShown hshown),
    laidOut_eq_singleton_iff.2 hfits]
  simp [unlines]

/-- The output for a complaint is written, or its tags are not in order. -/
theorem write_complaintBlocks_cases (d : Device) (message : String) :
    (write d (complaintBlocks message)).fault = none ∨
      (write d (complaintBlocks message)).fault = some .brokenMarkup := by
  rw [complaintBlocks_eq]
  cases htext : (Block.line (inRed ("Error: " ++ message))).text d with
  | ok text => simp [write, htext]
  | error fault =>
    cases text_line_of_error htext
    simp [write, htext]

/-! ## §2 Commands with a schema file -/

/-- The invocation asks about the types of the schema file at a path: the command line names the
    file or the settings do, the settings can be read, and if there has to be a file of roots, there
    is one. -/
structure AsksSchema (around : Surroundings) (i : Invocation) (config : Config) (p : FilePath) :
    Prop where
  roots : ∀ roots depth output, i.request = .analyze roots depth output →
    around.tree.holds roots = true
  settings : i.sources.settings around = .ok config
  runtime : i.sources.runtime = false
  schema : i.sources.schemaPath? config = some p

variable {around : Surroundings} {i : Invocation} {config : Config} {p : FilePath}

/-- The types are those of the schema that the file holds. -/
theorem AsksSchema.source_eq (h : AsksSchema around i config p) :
    i.sources.source around config = loadSchema around config p := by
  unfold Sources.source
  rw [h.runtime]
  cases i.sources.schema <;> simp only [h.schema]

/-- A schema that cannot be loaded stops every command, before the roots are read. -/
theorem AsksSchema.response_eq (h : AsksSchema around i config p) {stop : Stop}
    (hload : loadSchema around config p = .error stop) : i.response around = .error stop := by
  have hsource := h.source_eq.trans hload
  unfold Invocation.response
  cases hrequest : i.request with
  | query name q =>
    simp only [h.settings, hsource, bind, Except.bind]
  | analyze roots depth output =>
    simp only [h.roots roots depth output hrequest, h.settings, hsource, if_true, bind, Except.bind]

/-- What is said of a schema with a fault, given the words for a malformed text. -/
def faultMessage (p : FilePath) (malformed : String) (fault : Json.Fault) : String :=
  "Invalid schema " ++ p.text ++ ": " ++ fault.message malformed

/-- The reason to stop at a schema with a fault. -/
def faultStop (p : FilePath) (malformed : String) : SchemaFault → Stop
  | .tooNested => .crash .tooNested
  | .form .notText => .crash .notText
  | .form fault => .complaint (faultMessage p malformed fault)

theorem loadSchema_eq_faultStop {bs : Octets} (hread : around.tree.read p = .ok bs)
    {fault : SchemaFault} (hfault : around.readSchema bs = .error fault) :
    loadSchema around config p = .error (faultStop p (around.malformed bs) fault) := by
  unfold loadSchema
  rw [FileTree.holds_of_read hread, hread]
  dsimp only
  rw [hfault]
  cases fault with
  | tooNested => rfl
  | form fault => cases fault <;> rfl

/-- A fault in the form of a document is one that its reader meets. -/
theorem ofOctets_of_readSchema {bs : Octets} {fault : Json.Fault}
    (hfault : around.readSchema bs = .error (.form fault)) :
    Schema.ofOctets bs = .error fault := by
  unfold Surroundings.readSchema at hfault
  split at hfault
  · cases hform : Schema.ofOctets bs with
    | ok schema =>
      rw [hform] at hfault
      cases hfault
    | error fault' =>
      rw [hform] at hfault
      cases hfault
      rfl
  · cases hfault

/-! ## §3 Outcomes -/

/-- A reason to stop writes no files, logs nothing and ends with status one. A complaint breaks off
    at most for the tags in it. -/
theorem outcome_of_stop (stop : Stop) (d : Device) (log : Option Bool) :
    (stop.response.outcome d log).status = 1 ∧ (stop.response.outcome d log).written = [] ∧
      (stop.response.outcome d log).log = [] ∧
      ((∃ message, stop = .complaint message) → (stop.response.outcome d log).crash = none ∨
        (stop.response.outcome d log).crash = some (.output .brokenMarkup)) := by
  have hlog : ∀ verbose, logLines verbose [] = [] := fun _ => rfl
  cases stop with
  | complaint message =>
    rcases write_complaintBlocks_cases d message with hfault | hfault
    · cases log <;> simp [Stop.response, Response.outcome, hfault, hlog]
    · cases log <;> simp [Stop.response, Response.outcome, hfault, hlog]
  | crash c => cases log <;> simp [Stop.response, Response.outcome, write, hlog]

/-- A complaint that is shown as it stands is told, and the command does not break off. -/
theorem outcome_of_complaint {message : String} (h : isShown message.toList = true) (d : Device)
    (log : Option Bool) :
    ((Stop.complaint message).response.outcome d log).crash = none ∧
      ((Stop.complaint message).response.outcome d log).output =
        unlines (linesOf d.columns ("Error: " ++ message).toList) := by
  simp [Stop.response, Response.outcome, write_complaintBlocks d h]

theorem outcome_of_crash (c : Crash) (d : Device) (log : Option Bool) :
    ((Stop.crash c).response.outcome d log).crash = some c ∧
      ((Stop.crash c).response.outcome d log).output = "" := by
  simp [Stop.response, Response.outcome, write]

theorem faultStop_of_ne {fault : Json.Fault} (h : fault ≠ .notText) (malformed : String) :
    faultStop p malformed (.form fault) = .complaint (faultMessage p malformed fault) := by
  cases fault with
  | notText => exact absurd rfl h
  | _ => rfl

/-- The message is shown as it stands if the path is, and the words for a malformed text. -/
theorem isShown_faultMessage {gapless : Prop} {fault : Json.Fault} (hfair : fault.Fair gapless)
    {malformed : String} (hpath : isShown p.text.toList = true)
    (hmalformed : fault = .malformed → isShown malformed.toList = true) :
    isShown (faultMessage p malformed fault).toList = true := by
  have hwords : isShown (fault.message malformed).toList = true := by
    by_cases hfault : fault = .malformed
    · subst hfault
      exact hmalformed rfl
    · exact hfair.1 hfault malformed
  refine isShown_append_toList (isShown_append_toList ?_ (by decide)) hwords
  exact isShown_append_toList (by decide) hpath

theorem width_complaint_pos (message : String) : 0 < Text.width ("Error: " ++ message).toList := by
  have hwidth : 0 < Text.width "Error: ".toList := by decide
  rw [String.toList_append, Text.width_append]
  omega

/-- A command that asks about the types of a file that is no schema writes no files, logs nothing
    and ends with status one. It complains of the schema, on as many lines as the console needs, if
    the path is shown as it stands and, for a malformed text, so are the words of the reader. In any
    case it breaks off for no other reason than tags in the complaint, unless the file holds a
    string without a text that the schema needs, or is nested too deep to be read. Then it breaks
    off and tells nothing. A file of the first kind is not well-formed UTF-8. -/
theorem outcome_of_faulty_schema {words : List String} (hwords : Invocation.ofWords? words = some i)
    (hasks : AsksSchema around i config p) {bs : Octets} (hread : around.tree.read p = .ok bs)
    {fault : SchemaFault} (hfault : around.readSchema bs = .error fault) :
    ∃ o, run? around words = some o ∧ o.status = 1 ∧ o.written = [] ∧ o.log = [] ∧
      (∀ form, fault = .form form → form ≠ .notText →
        (isShown p.text.toList = true →
          (form = .malformed → isShown (around.malformed bs).toList = true) →
            let line := "Error: " ++ ("Invalid schema " ++ p.text ++ ": " ++
              form.message (around.malformed bs))
            o.crash = none ∧ o.output = unlines (linesOf around.device.columns line.toList) ∧
              (Fits around.device.columns line.toList → o.output = line ++ "\n")) ∧
        (o.crash = none ∨ o.crash = some (.output .brokenMarkup))) ∧
      (fault = .form .notText →
        o.crash = some .notText ∧ o.output = "" ∧ Text.decode? bs = none) ∧
      (fault = .tooNested → o.crash = some .tooNested ∧ o.output = "") := by
  have hresponse := hasks.response_eq (loadSchema_eq_faultStop hread hfault)
  have hrun : run? around words = some
      ((faultStop p (around.malformed bs) fault).response.outcome around.device i.log) := by
    rw [run?, hwords, Option.map_some, Invocation.outcome, hresponse]
  obtain ⟨hstatus, hwritten, hlog, hcrash⟩ :=
    outcome_of_stop (faultStop p (around.malformed bs) fault) around.device i.log
  refine ⟨_, hrun, hstatus, hwritten, hlog, ?told, ?gaps, ?nested⟩
  case told =>
    rintro form rfl hne
    refine ⟨fun hpath hmalformed => ?_, hcrash ⟨_, faultStop_of_ne hne _⟩⟩
    have hfair := Schema.fair_ofOctets bs form (ofOctets_of_readSchema hfault)
    have hshown := isShown_faultMessage hfair hpath hmalformed
    obtain ⟨hnone, houtput⟩ := outcome_of_complaint hshown around.device i.log
    rw [faultStop_of_ne hne]
    refine ⟨hnone, houtput, fun hfits => houtput.trans ?_⟩
    exact unlines_linesOf_of_fits (isShown_append_toList (by decide) hshown)
      (width_complaint_pos _) hfits
  case gaps =>
    -- the fault of a gap is no fault of a file that can be decoded
    rintro rfl
    have hfair := Schema.fair_ofOctets bs .notText (ofOctets_of_readSchema hfault)
    obtain ⟨hcrash, houtput⟩ := outcome_of_crash .notText around.device i.log
    refine ⟨hcrash, houtput, ?_⟩
    by_contra hdecode
    exact hfair.2 hdecode rfl
  case nested =>
    rintro rfl
    exact outcome_of_crash .tooNested around.device i.log

/-- A schema whose version holds an octet that is no character. -/
def gappedSchema : Octets :=
  Text.encode "\x7b\"version\":\"" ++ [0xff] ++ Text.encode "\"\x7d"

/-- A file of roots, a schema with a type that has no name, and the one with the odd octet. -/
def faultyTree : FileTree where
  files := [(["r.txt"], Text.encode "A\n"),
    (["s.json"], Text.encode "\x7b\"types\": [\x7b\x7d]\x7d"), (["g.json"], gappedSchema)]

private theorem eq_error_of_fault? {ε α : Type} {x : Except ε α} {e : ε}
    (h : (match x with | .ok _ => none | .error e => some e) = some e) : x = .error e := by
  cases x with
  | ok a => cases h
  | error e' => exact congrArg Except.error (Option.some.inj h)

/-- What the schema without a name is asked for. -/
def namelessInvocation : Invocation where
  request := .analyze { parts := ["r.txt"] } none none
  sources := { schema := some { parts := ["s.json"] } }
  log := some false

/-- What the schema with the odd octet is asked for. -/
def gappedInvocation : Invocation where
  request := .query "A" .resolve
  sources := { schema := some { parts := ["g.json"] } }

/-- The schema without a name is complained of on two lines, and the other one breaks the command
    off. -/
theorem outcome_of_faulty_schema_faultyTree :
    (∃ o, run? { tree := faultyTree } ["analyze", "r.txt", "-s", "s.json"] = some o ∧
      o.status = 1 ∧ o.crash = none ∧ o.written = [] ∧ o.output =
        "Error: Invalid schema s.json: Object missing required field `name` - at \n" ++
          "`$.types[0]`\n") ∧
    ∃ o, run? { tree := faultyTree } ["resolve", "A", "-s", "g.json"] = some o ∧
      o.status = 1 ∧ o.crash = some .notText ∧ o.written = [] ∧ o.output = "" := by
  refine ⟨?nameless, ?gapped⟩
  case nameless =>
    have hwords : Invocation.ofWords? ["analyze", "r.txt", "-s", "s.json"] =
        some namelessInvocation := by decide +kernel
    have hroots : faultyTree.holds { parts := ["r.txt"] } = true := by decide +kernel
    have hasks : AsksSchema { tree := faultyTree } namelessInvocation {} { parts := ["s.json"] } :=
      ⟨fun _ _ _ h => by cases h; exact hroots, rfl, rfl, rfl⟩
    have hread : faultyTree.read { parts := ["s.json"] } =
        .ok (Text.encode "\x7b\"types\": [\x7b\x7d]\x7d") := eq_ok_of_toOption (by decide +kernel)
    have hfault : Surroundings.readSchema { tree := faultyTree }
        (Text.encode "\x7b\"types\": [\x7b\x7d]\x7d") =
          .error (.form (.missing "name" [.index 0, .key "types"])) :=
      eq_error_of_fault? (by decide +kernel)
    obtain ⟨o, hrun, hstatus, hwritten, -, htold, -⟩ :=
      outcome_of_faulty_schema hwords hasks hread hfault
    obtain ⟨hshown, -⟩ := htold _ rfl nofun
    obtain ⟨hcrash, houtput, -⟩ := hshown (by decide) nofun
    exact ⟨o, hrun, hstatus, hcrash, hwritten, houtput.trans (by decide +kernel)⟩
  case gapped =>
    have hwords : Invocation.ofWords? ["resolve", "A", "-s", "g.json"] = some gappedInvocation := by
      decide +kernel
    have hasks : AsksSchema { tree := faultyTree } gappedInvocation {} { parts := ["g.json"] } :=
      ⟨nofun, rfl, rfl, rfl⟩
    have hread : faultyTree.read { parts := ["g.json"] } = .ok gappedSchema :=
      eq_ok_of_toOption (by decide +kernel)
    have hfault : Surroundings.readSchema { tree := faultyTree } gappedSchema =
        .error (.form .notText) := eq_error_of_fault? (by decide +kernel)
    obtain ⟨o, hrun, hstatus, hwritten, -, -, hgaps, -⟩ :=
      outcome_of_faulty_schema hwords hasks hread hfault
    obtain ⟨hcrash, houtput, -⟩ := hgaps rfl
    exact ⟨o, hrun, hstatus, hcrash, hwritten, houtput⟩

end CommandLine

end TypeAtlas
