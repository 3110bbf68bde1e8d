import TypeAtlas.Json.Reading
import TypeAtlas.Proofs.Console.Shown
import TypeAtlas.Proofs.Json.Gaps
import TypeAtlas.Proofs.Json.Printing

/-!
# What faults say

The words for a fault of a well-formed text are shown as they stand: the path in them is made of
keys that the reader knows and of places that it counts, and nothing of the document itself. That a
string has no text is a fault only of documents with gaps.

Main statements: `Json.fair_list`, `Json.fair_object` and `Json.fair_anyValue`.
-/

namespace TypeAtlas

namespace Json

open Console

/-! ## §1 Words -/

/-- The words for each step of the path are shown as they stand. -/
def ShownPath (path : Path) : Prop := ∀ step ∈ path, isShown step.text.toList = true

theorem shownPath_nil : ShownPath [] := fun _ h => absurd h List.not_mem_nil

theorem ShownPath.cons {step : PathStep} {path : Path} (h : ShownPath path)
    (hstep : isShown step.text.toList = true) : ShownPath (step :: path) :=
  List.forall_mem_cons.2 ⟨hstep, h⟩

theorem isShown_of_isDigit {cs : List Char} (h : ∀ c ∈ cs, isDigit c = true) :
    isShown cs = true := by
  apply isShown_of_forall
  intro c hc
  have hdigit := h c hc
  have hmarks : c ≠ '\\' ∧ c ≠ '[' ∧ c ≠ ':' := by
    refine ⟨?_, ?_, ?_⟩ <;> rintro rfl <;> simp [isDigit] at hdigit
  refine ⟨?_, hmarks⟩
  simp only [isPlaced, Markup.isSilent, Bool.and_eq_true, bne_iff_ne, ne_eq, Bool.not_eq_true',
    Bool.or_eq_false_iff, beq_eq_false_iff_ne]
  refine ⟨⟨?_, ?_⟩, ⟨⟨⟨?_, ?_⟩, ?_⟩, ?_⟩, ?_⟩ <;> rintro rfl <;> simp [isDigit] at hdigit

theorem isTagStart_of_isDigit {c : Char} (h : isDigit c = true) : Markup.isTagStart c = false := by
  have hbounds : 48 ≤ c.toNat ∧ c.toNat ≤ 57 := by
    simpa [isDigit, Char.le_def, UInt32.le_iff_toNat_le] using h
  have hletter : ¬ 97 ≤ c.toNat := by omega
  have hmarks : c ≠ '#' ∧ c ≠ '/' ∧ c ≠ '@' := by
    refine ⟨?_, ?_, ?_⟩ <;> rintro rfl <;> simp [isDigit] at h
  simp [Markup.isTagStart, hletter, hmarks]

/-- No number is the name of a tag. -/
theorem isShown_index (n : Nat) : isShown (PathStep.index n).text.toList = true := by
  have hdigits : isShown (Nat.toDigits 10 n ++ [']']) = true :=
    isShown_append (isShown_of_isDigit fun _ => isDigit_of_mem_toDigits) (by decide)
  have htag : opensNoTag (Nat.toDigits 10 n ++ [']']) = true := by
    apply opensNoTag_append
    cases hcs : Nat.toDigits 10 n with
    | nil => exact absurd hcs Nat.toDigits_ne_nil
    | cons c cs =>
      have hc : isDigit c = true := isDigit_of_mem_toDigits (n := n) (by simp [hcs])
      simp [opensNoTag, isTagStart_of_isDigit hc]
  have htext : (PathStep.index n).text.toList = '[' :: (Nat.toDigits 10 n ++ [']']) := by
    simp [PathStep.text, Nat.toList_repr]
  rw [htext]
  have hcolon : '[' ≠ ':' := by decide
  exact isShown_cons.2 ⟨by decide, by decide, fun _ => htag, fun h => absurd h hcolon, hdigits⟩

theorem isShown_join {path : Path} (h : ShownPath path) :
    isShown (String.join (path.map PathStep.text)).toList = true := by
  induction path with
  | nil => simp [isShown]
  | cons step path ih =>
    rw [List.map_cons, String.join_cons]
    exact isShown_append_toList (h step (by simp)) (ih fun step hstep => h step (by simp [hstep]))

theorem isShown_pathSuffix {path : Path} (h : ShownPath path) :
    isShown (pathSuffix path).toList = true := by
  cases path with
  | nil => simp [pathSuffix, isShown]
  | cons step path =>
    have hjoin := isShown_join fun s hs => h s (List.mem_reverse.1 hs)
    exact isShown_append_toList (isShown_append_toList (by decide) hjoin) (by decide)

/-- A fault of which the words are shown as they stand, those for a malformed text apart, and which
    is that of a string without a text only if there are gaps. -/
def Fault.Fair (gapless : Prop) (fault : Fault) : Prop :=
  (fault ≠ .malformed → ∀ words, isShown (fault.message words).toList = true) ∧
    (gapless → fault ≠ .notText)

theorem fair_malformed (gapless : Prop) : Fault.malformed.Fair gapless :=
  ⟨fun h => absurd rfl h, nofun⟩

theorem fair_outOfRange {path : Path} (h : ShownPath path) (gapless : Prop) :
    (Fault.outOfRange path).Fair gapless :=
  ⟨fun _ _ => isShown_append_toList (by decide) (isShown_pathSuffix h), nofun⟩

theorem fair_missing {name : String} (hname : isShown name.toList = true) {path : Path}
    (h : ShownPath path) (gapless : Prop) : (Fault.missing name path).Fair gapless := by
  refine ⟨fun _ _ => ?_, nofun⟩
  refine isShown_append_toList (isShown_append_toList ?_ (by decide)) (isShown_pathSuffix h)
  exact isShown_append_toList (by decide) hname

theorem fair_mismatch {path : Path} (h : ShownPath path) (wanted : Wanted) (found : Found)
    (gapless : Prop) : (Fault.mismatch wanted found path).Fair gapless := by
  have hwanted : isShown wanted.text.toList = true := by cases wanted <;> decide
  have hfound : isShown found.text.toList = true := by cases found <;> decide
  refine ⟨fun _ _ => ?_, nofun⟩
  refine isShown_append_toList (isShown_append_toList ?_ (by decide)) (isShown_pathSuffix h)
  refine isShown_append_toList (isShown_append_toList ?_ (by decide)) hfound
  exact isShown_append_toList (by decide) hwanted

/-! ## §2 Readers -/

/-- Whatever a computation fails for is a fair fault. -/
def Fair {α : Type} (gapless : Prop) (x : Except Fault α) : Prop :=
  ∀ fault, x = .error fault → fault.Fair gapless

section

variable {α β : Type} {gapless : Prop}

theorem fair_ok (a : α) : Fair gapless (.ok a : Except Fault α) := nofun

theorem fair_error {fault : Fault} (h : fault.Fair gapless) :
    Fair gapless (.error fault : Except Fault α) := by
  rintro _ ⟨⟩
  exact h

theorem Fair.bind {x : Except Fault α} {f : α → Except Fault β} (hx : Fair gapless x)
    (hf : ∀ a, Fair gapless (f a)) : Fair gapless (x >>= f) := by
  cases x with
  | ok a => exact hf a
  | error fault =>
    rintro _ ⟨⟩
    exact hx fault rfl

theorem Fair.map {x : Except Fault α} (hx : Fair gapless x) (f : α → β) :
    Fair gapless (f <$> x) := by
  cases x with
  | ok a => exact nofun
  | error fault =>
    rintro _ ⟨⟩
    exact hx fault rfl

theorem Fair.mono {gapless' : Prop} {x : Except Fault α} (hx : Fair gapless x)
    (h : gapless' → gapless) : Fair gapless' x :=
  fun fault hfault => ⟨(hx fault hfault).1, fun hg => (hx fault hfault).2 (h hg)⟩

theorem fair_closed (closed : Bool) (a : α) :
    Fair gapless (if closed then .ok a else .error .malformed : Except Fault α) := by
  cases closed with
  | false => exact fair_error (fair_malformed _)
  | true => exact fair_ok a

end

/-- A reader whose faults are fair at every node, wherever it stands. -/
def FairReader {α : Type} (reader : Reader α) : Prop :=
  ∀ path node, ShownPath path → Fair node.Gapless (reader path node)

theorem fair_needText (s : Option String) : Fair (s ≠ none) (needText s) := by
  cases s with
  | none =>
    have hwords : isShown "invalid UTF-8".toList = true := by decide
    exact fair_error ⟨fun _ _ => hwords, fun h => absurd rfl h⟩
  | some s => exact fair_ok s

section

variable {α σ : Type} {gapless : Prop} {path : Path}

theorem fair_found (h : ShownPath path) (node : Node) : Fair gapless (node.found path) := by
  unfold Node.found
  split
  case h_4 =>
    split
    · exact fair_error (fair_outOfRange h _)
    · exact fair_ok _
  case h_8 => exact fair_error (fair_malformed _)
  all_goals exact fair_ok _

theorem Fair.mismatch (h : ShownPath path) (wanted : Wanted) (node : Node) :
    Fair gapless (Json.mismatch (α := α) wanted path node) := by
  unfold Json.mismatch
  split
  case h_1 found _ => exact fair_error (fair_mismatch h wanted found _)
  case h_2 fault hfault => exact fair_error (fair_found h node fault hfault)

theorem fair_text : FairReader text := by
  intro path node h
  unfold text
  split
  · exact fair_needText _
  · exact .mismatch h _ _

theorem fair_textOrNull : FairReader textOrNull := by
  intro path node h
  unfold textOrNull
  split
  · exact (fair_needText _).map _
  · exact fair_ok _
  · exact .mismatch h _ _

theorem fair_listFrom {item : Reader α} (hitem : FairReader item) (h : ShownPath path) (n : Nat)
    (nodes : List Node) : Fair (GaplessItems nodes) (listFrom item path n nodes) := by
  induction nodes generalizing n with
  | nil => exact fair_ok _
  | cons node nodes ih =>
    refine .bind ((hitem _ node (h.cons (isShown_index n))).mono And.left) fun a => ?_
    exact .bind ((ih (n + 1)).mono And.right) fun rest => fair_ok _

theorem fair_list {item : Reader α} (hitem : FairReader item) : FairReader (list item) := by
  intro path node h
  unfold list
  split
  · exact .bind (fair_listFrom hitem h 0 _) fun as => fair_closed _ _
  · exact .mismatch h _ _

theorem fair_part {read : Reader α} (hread : FairReader read) {name : String}
    (hname : isShown (PathStep.key name).text.toList = true) : FairReader (part name read) :=
  fun _ node h => hread _ node (h.cons hname)

theorem fair_need {name : String} (hname : isShown name.toList = true) (h : ShownPath path)
    (a? : Option α) : Fair gapless (need name path a?) := by
  cases a? with
  | none => exact fair_error (fair_missing hname h _)
  | some a => exact fair_ok a

/-- A reader of members whose faults are fair, be they those of keys or of values. -/
def FairMember (member : σ → Option String → Path → Node → Except Fault σ) : Prop :=
  ∀ s k path node, ShownPath path → Fair (k ≠ none ∧ node.Gapless) (member s k path node)

theorem fair_membersInto {member : σ → Option String → Path → Node → Except Fault σ}
    (hmember : FairMember member) (h : ShownPath path) (s : σ) (ms : List (Option String × Node)) :
    Fair (GaplessMembers ms) (membersInto member path s ms) := by
  induction ms generalizing s with
  | nil => exact fair_ok s
  | cons m ms ih =>
    refine .bind ((hmember s m.1 path m.2 h).mono fun hg => ⟨hg.1, hg.2.1⟩) fun s => ?_
    exact (ih s).mono fun hg => hg.2.2

theorem fair_object {start : σ} {member : σ → Option String → Path → Node → Except Fault σ}
    {finish : Path → σ → Except Fault α} (hmember : FairMember member)
    (hfinish : ∀ path s, ShownPath path → Fair True (finish path s)) :
    FairReader (object start member finish) := by
  intro path node h
  unfold object
  split
  · refine .bind (fair_membersInto hmember h start _) fun s => ?_
    split
    · exact (hfinish path s h).mono fun _ => trivial
    · exact fair_error (fair_malformed _)
  · exact .mismatch h _ _

end

/-! ## §3 Values that are kept or passed over -/

mutual

/-- Passing over a value fails for no string. -/
theorem fair_skim : ∀ node : Node, Fair True (skim node)
  | .null => fair_ok _
  | .bool _ => fair_ok _
  | .int _ => fair_ok _
  | .str _ => fair_ok _
  | .decimal m e => by
    unfold skim
    split
    · exact fair_error (fair_outOfRange shownPath_nil _)
    · exact fair_ok _
  | .arr nodes closed => .bind (fair_skimItems nodes) fun _ => fair_closed _ _
  | .obj ms closed => .bind (fair_skimMembers ms) fun _ => fair_closed _ _
  | .broken => fair_error (fair_malformed _)

theorem fair_skimItems : ∀ nodes : List Node, Fair True (skimItems nodes)
  | [] => fair_ok _
  | node :: nodes => .bind (fair_skim node) fun _ => fair_skimItems nodes

theorem fair_skimMembers : ∀ ms : List (Option String × Node), Fair True (skimMembers ms)
  | [] => fair_ok _
  | (_, node) :: ms => .bind (fair_skim node) fun _ => fair_skimMembers ms

end

mutual

theorem fair_anyValue : ∀ (node : Node) (path : Path), ShownPath path →
    Fair node.Gapless (anyValue path node)
  | .null, _, _ => fair_ok _
  | .bool _, _, _ => fair_ok _
  | .int _, _, _ => fair_ok _
  | .str s, _, _ => (fair_needText s).map _
  | .decimal m e, path, h => by
    unfold anyValue
    split
    · exact fair_error (fair_outOfRange h _)
    · exact fair_ok _
  | .arr nodes closed, path, h => .bind (fair_anyItems nodes path 0 h) fun _ => fair_closed _ _
  | .obj ms closed, path, h => .bind (fair_anyMembers ms path [] h) fun _ => fair_closed _ _
  | .broken, _, _ => fair_error (fair_malformed _)

theorem fair_anyItems : ∀ (nodes : List Node) (path : Path) (n : Nat), ShownPath path →
    Fair (GaplessItems nodes) (anyItems path n nodes)
  | [], _, _, _ => fair_ok _
  | node :: nodes, path, n, h => by
    refine .bind ((fair_anyValue node _ (h.cons (isShown_index n))).mono And.left) fun v => ?_
    exact .bind ((fair_anyItems nodes path (n + 1) h).mono And.right) fun vs => fair_ok _

theorem fair_anyMembers : ∀ (ms : List (Option String × Node)) (path : Path)
    (before : List (String × Json)), ShownPath path →
    Fair (GaplessMembers ms) (anyMembers path before ms)
  | [], _, _, _ => fair_ok _
  | (k, node) :: ms, path, before, h => by
    have hany : isShown PathStep.any.text.toList = true := by decide
    refine .bind ((fair_needText k).mono And.left) fun k => ?_
    refine .bind ((fair_anyValue node _ (h.cons hany)).mono fun hg => hg.2.1) fun v => ?_
    exact (fair_anyMembers ms path _ h).mono fun hg => hg.2.2

end

theorem fair_anyObject : FairReader anyObject := by
  intro path node h
  unfold anyObject
  split
  · exact .bind (fair_anyMembers _ path [] h) fun _ => fair_closed _ _
  · exact .mismatch h _ _

/-! ## §4 Members and documents -/

section

variable {σ β : Type} {P : Prop} {path : Path}

/-- A member whose value is kept. -/
theorem fair_keep {read : Reader β} (hread : FairReader read) {name : String}
    (hname : isShown (PathStep.key name).text.toList = true) (h : ShownPath path) (node : Node)
    (keep : β → σ) :
    Fair (P ∧ node.Gapless) (part name read path node >>= fun b => pure (keep b)) :=
  .bind ((fair_part hread hname path node h).mono And.right) fun b => fair_ok (keep b)

/-- A member that is passed over. -/
theorem fair_pass (s : σ) (node : Node) : Fair P (skim node >>= fun _ => pure s) :=
  .bind ((fair_skim node).mono fun _ => trivial) fun _ => fair_ok s

end

/-- A fair reader fails fairly on a whole document. -/
theorem fair_read {α : Type} {reader : Reader α} (h : FairReader reader) (d : Document) :
    Fair d.root.Gapless (d.read reader) :=
  .bind (h [] d.root shownPath_nil) fun _ => fair_closed _ _

end Json

end TypeAtlas
