import TypeAtlas.CommandLine.Outcome

/-!
# Lines of root types

Which names a text lists depends on its lines alone: it makes no difference by which of the three
line ends each line is ended, or whether the last one is ended at all. A carriage return at the end
of one line and a line feed at the end of an empty line after it are read as one line end, and that
only loses an empty line, which lists nothing.

Main statements: `Spells.rootNames_eq` and `root_names_of_lines`.
-/

namespace TypeAtlas

/-! ## §1 Lines and their ends -/

/-- What may end a line. -/
inductive LineEnd where
  | lineFeed | carriageReturn | both
  deriving Repr, DecidableEq

/-- The characters of a line end. -/
def LineEnd.text : LineEnd → String
  | .lineFeed => "\n"
  | .carriageReturn => "\r"
  | .both => "\r\n"

/-- The text is one line: it holds neither of the characters that end lines. -/
def IsLine (l : String) : Prop := '\n' ∉ l.toList ∧ '\r' ∉ l.toList

/-- The text holds these lines, each with an end of any kind. The last line may go without. -/
inductive Spells : List String → String → Prop where
  | none : Spells [] ""
  | last {l : String} : IsLine l → Spells [l] l
  | line {l t : String} {ls : List String} (e : LineEnd) :
      IsLine l → Spells ls t → Spells (l :: ls) (l ++ e.text ++ t)

/-- One more character in front of a text stands in front of its first line. -/
theorem Spells.exists_of_push {ls : List String} {t : String} (h : Spells ls t) {c : Char}
    (hc : c ≠ '\n' ∧ c ≠ '\r') : ∃ ls', Spells ls' (String.singleton c ++ t) := by
  have hpush : ∀ {l : String}, IsLine l → IsLine (String.singleton c ++ l) := by
    intro l hl
    unfold IsLine
    rw [String.toList_append, String.toList_singleton, List.singleton_append, List.mem_cons,
      List.mem_cons, not_or, not_or]
    exact ⟨⟨hc.1.symm, hl.1⟩, hc.2.symm, hl.2⟩
  cases h with
  | none => exact ⟨_, .last (hpush (l := "") ⟨nofun, nofun⟩)⟩
  | last hl => exact ⟨_, .last (hpush hl)⟩
  | @line l t ls e hl ht =>
    have hassoc : String.singleton c ++ (l ++ e.text ++ t) =
        String.singleton c ++ l ++ e.text ++ t := by
      simp only [String.append_assoc]
    rw [hassoc]
    exact ⟨_, .line e (hpush hl) ht⟩

/-- Every text consists of lines. -/
theorem exists_spells (t : String) : ∃ ls, Spells ls t := by
  have key : ∀ cs : List Char, ∃ ls, Spells ls (String.ofList cs) := by
    intro cs
    induction cs with
    | nil => exact ⟨[], .none⟩
    | cons c cs ih =>
      obtain ⟨ls, hls⟩ := ih
      have hempty : IsLine "" := ⟨nofun, nofun⟩
      have hcons : String.ofList (c :: cs) = String.singleton c ++ String.ofList cs := by
        apply String.toList_injective
        simp
      rw [hcons]
      by_cases hfeed : c = '\n'
      · subst hfeed
        exact ⟨"" :: ls, .line .lineFeed hempty hls⟩
      · by_cases hreturn : c = '\r'
        · subst hreturn
          exact ⟨"" :: ls, .line .carriageReturn hempty hls⟩
        · exact hls.exists_of_push ⟨hfeed, hreturn⟩
  simpa using key t.toList

/-! ## §2 What lines list -/

/-- The names that lines list: what is left of each without the blanks around it, unless that is
    empty or a comment. -/
def namesOf (ls : List String) : List String := (ls.map Text.strip).filter isRootName

theorem namesOf_cons (l : String) (ls : List String) :
    namesOf (l :: ls) = namesOf [l] ++ namesOf ls :=
  List.filter_append (p := isRootName) [Text.strip l] (ls.map Text.strip)

theorem namesOf_empty : namesOf [""] = [] := by decide

theorem isRootName_iff {n : String} :
    isRootName n = true ↔ n ≠ "" ∧ ¬ "//".toList <+: n.toList ∧ ¬ "#".toList <+: n.toList := by
  rw [ne_eq, ← String.toList_eq_nil_iff]
  unfold isRootName
  split
  case h_1 hn => simp [hn]
  case h_2 cs hn => simp [hn]
  case h_3 cs hn => simp [hn]
  case h_4 hnil hhash hslashes =>
    refine iff_of_true rfl ⟨hnil, ?_, ?_⟩
    · intro h
      obtain ⟨cs, hcs⟩ := h
      exact hslashes cs hcs.symm
    · intro h
      obtain ⟨cs, hcs⟩ := h
      exact hhash cs hcs.symm

/-- Stripping takes characters away and adds none. -/
theorem isLine_strip {l : String} (hl : IsLine l) : IsLine (Text.strip l) := by
  have hsub : ∀ c ∈ (Text.strip l).toList, c ∈ l.toList := by
    intro c hc
    rw [Text.strip, String.toList_ofList, Text.stripChars, List.mem_reverse] at hc
    have hmem := (List.dropWhile_sublist _).mem hc
    rw [List.mem_reverse] at hmem
    exact (List.dropWhile_sublist _).mem hmem
  exact ⟨fun h => hl.1 (hsub _ h), fun h => hl.2 (hsub _ h)⟩

/-- The names that lines list are stripped, have no line end in them, are not empty and no
    comments. -/
theorem of_mem_namesOf {ls : List String} (hls : ∀ l ∈ ls, IsLine l) {n : String}
    (hn : n ∈ namesOf ls) : Text.strip n = n ∧ IsLine n ∧ isRootName n = true := by
  obtain ⟨hmem, hroot⟩ := List.mem_filter.1 hn
  obtain ⟨l, hl, rfl⟩ := List.mem_map.1 hmem
  exact ⟨Text.strip_strip l, isLine_strip (hls l hl), hroot⟩

/-- Such names list themselves. -/
theorem namesOf_eq_self {ns : List String}
    (hns : ∀ n ∈ ns, Text.strip n = n ∧ isRootName n = true) : namesOf ns = ns := by
  have hstrip : ns.map Text.strip = ns.map id := List.map_congr_left fun n hn => (hns n hn).1
  unfold namesOf
  rw [hstrip, List.map_id, List.filter_eq_self]
  exact fun n hn => (hns n hn).2

/-! ## §3 Texts that hold lines -/

namespace Text

theorem linesFrom_append {cs : List Char} (hcs : '\n' ∉ cs ∧ '\r' ∉ cs) (acc rest : List Char) :
    linesFrom acc (cs ++ rest) = linesFrom (cs.reverse ++ acc) rest := by
  induction cs generalizing acc with
  | nil => rfl
  | cons c cs ih =>
    obtain ⟨hfeed, hreturn⟩ := hcs
    rw [List.mem_cons, not_or] at hfeed hreturn
    rw [List.cons_append, linesFrom, ih ⟨hfeed.2, hreturn.2⟩, List.reverse_cons, List.append_assoc,
      List.singleton_append]
    · exact fun cs' heq _ => hreturn.1 heq.symm
    · exact fun heq => hreturn.1 heq.symm
    · exact fun heq => hfeed.1 heq.symm

/-- The last line goes without an end. An empty one is none. -/
theorem lines_last {l : String} (hl : IsLine l) : lines l = if l = "" then [] else [l] := by
  have hall := linesFrom_append hl [] []
  rw [List.append_nil, List.append_nil, linesFrom] at hall
  rw [lines, hall]
  by_cases hempty : l = ""
  · subst hempty
    rfl
  · simp [hempty]

/-- A carriage return ends a line, and so it does together with a line feed after it. -/
theorem linesFrom_carriageReturn (acc cs : List Char) :
    linesFrom acc ('\r' :: cs) = acc.reverse :: linesFrom [] cs ∨
      ∃ cs', cs = '\n' :: cs' ∧ linesFrom acc ('\r' :: cs) = acc.reverse :: linesFrom [] cs' := by
  by_cases hfeed : ∃ cs', cs = '\n' :: cs'
  · obtain ⟨cs', rfl⟩ := hfeed
    exact .inr ⟨cs', rfl, rfl⟩
  · refine .inl ?_
    rw [linesFrom]
    exact fun cs' heq => hfeed ⟨cs', heq⟩

/-- A line that is ended comes first, and the text after its end is read as lines, unless that
    begins with a line feed which belongs to the end. -/
theorem lines_line {l : String} (hl : IsLine l) (e : LineEnd) (t : String) :
    lines (l ++ e.text ++ t) = l :: lines t ∨
      ∃ t', t = "\n" ++ t' ∧ lines (l ++ e.text ++ t) = l :: lines t' := by
  have hline : lines (l ++ e.text ++ t) =
      (linesFrom l.toList.reverse (e.text.toList ++ t.toList)).map String.ofList := by
    rw [lines, String.append_assoc, String.toList_append, String.toList_append,
      linesFrom_append hl, List.append_nil]
  have hself : String.ofList l.toList.reverse.reverse = l := by
    rw [List.reverse_reverse, String.ofList_toList]
  rw [hline]
  cases e with
  | lineFeed => exact .inl (congrArg (· :: lines t) hself)
  | both => exact .inl (congrArg (· :: lines t) hself)
  | carriageReturn =>
    rcases linesFrom_carriageReturn l.toList.reverse t.toList with h | ⟨cs, hcs, h⟩
    · refine .inl ?_
      show (linesFrom l.toList.reverse ('\r' :: t.toList)).map String.ofList = _
      rw [h, List.map_cons, hself]
      rfl
    · refine .inr ⟨String.ofList cs, ?_, ?_⟩
      · apply String.toList_injective
        simp [hcs]
      · show (linesFrom l.toList.reverse ('\r' :: t.toList)).map String.ofList = _
        rw [h, List.map_cons, hself, lines, String.toList_ofList]

end Text

/-- The first line of a text lists what it lists alone, and the text after its end lists the
    rest. -/
theorem rootNames_line {l : String} (hl : IsLine l) (e : LineEnd) (t : String) :
    rootNames (l ++ e.text ++ t) = namesOf [l] ++ rootNames t := by
  show namesOf (Text.lines (l ++ e.text ++ t)) = namesOf [l] ++ namesOf (Text.lines t)
  rcases Text.lines_line hl e t with h | ⟨t', rfl, h⟩
  · rw [h, namesOf_cons]
  · -- the line that is lost is empty
    have hempty : Text.lines ("\n" ++ t') = "" :: Text.lines t' := by
      rw [Text.lines, Text.lines, String.toList_append]
      rfl
    rw [h, hempty, namesOf_cons l, namesOf_cons "", namesOf_empty, List.nil_append]

/-- A text lists what its lines list. -/
theorem Spells.rootNames_eq {ls : List String} {t : String} (h : Spells ls t) :
    rootNames t = namesOf ls := by
  induction h with
  | none => rfl
  | @last l hl =>
    show namesOf (Text.lines l) = namesOf [l]
    rw [Text.lines_last hl]
    split
    · next hempty => rw [hempty, namesOf_empty]; rfl
    · rfl
  | @line l t ls e hl _ ih => rw [rootNames_line hl, ih, ← namesOf_cons]

/-- A line feed parts a text in two that are read apart. -/
theorem rootNames_append (a b : String) :
    rootNames (a ++ "\n" ++ b) = rootNames a ++ rootNames b := by
  obtain ⟨ls, h⟩ := exists_spells a
  induction h with
  | none => exact rootNames_line (l := "") ⟨nofun, nofun⟩ .lineFeed b
  | @last l hl =>
    rw [(Spells.last hl).rootNames_eq]
    exact rootNames_line hl .lineFeed b
  | @line l t ls e hl _ ih =>
    have hassoc : l ++ e.text ++ t ++ "\n" ++ b = l ++ e.text ++ (t ++ "\n" ++ b) := by
      simp only [String.append_assoc]
    rw [hassoc, rootNames_line hl, ih, rootNames_line hl, List.append_assoc]

/-- Lines written one after the other, each with a line feed. -/
theorem spells_join {ls : List String} (hls : ∀ l ∈ ls, IsLine l) :
    Spells ls (String.join (ls.map (· ++ "\n"))) := by
  induction ls with
  | nil => exact .none
  | cons l ls ih =>
    obtain ⟨hl, hrest⟩ := List.forall_mem_cons.1 hls
    rw [List.map_cons, String.join_cons]
    exact .line .lineFeed hl (ih hrest)

/-- The lines of a text are lines. -/
theorem Spells.isLine {ls : List String} {t : String} (h : Spells ls t) : ∀ l ∈ ls, IsLine l := by
  induction h with
  | none => exact nofun
  | last hl => exact List.forall_mem_singleton.2 hl
  | line e hl _ ih => exact List.forall_mem_cons.2 ⟨hl, ih⟩

/-! ## §4 Files -/

theorem rootNames?_encode (t : String) : rootNames? (Text.encode t) = some (rootNames t) := by
  rw [rootNames?, Text.decode?_encode]
  rfl

theorem rootNames?_eq_none_iff {bs : Octets} :
    rootNames? bs = none ↔ ¬ bs.toByteArray.IsValidUTF8 := by
  rw [rootNames?, Option.map_eq_none_iff, ← Text.exists_decode?_iff, ← Option.ne_none_iff_exists',
    ne_eq, Classical.not_not]

/-- A file that is a text lists what the lines of that text list. -/
theorem exists_lines_of_rootNames? {bs : Octets} {ns : List String} (h : rootNames? bs = some ns) :
    ∃ ls, (∀ l ∈ ls, IsLine l) ∧ ns = namesOf ls := by
  obtain ⟨t, -, rfl⟩ := Option.map_eq_some_iff.1 h
  obtain ⟨ls, hls⟩ := exists_spells t
  exact ⟨ls, hls.isLine, hls.rootNames_eq⟩

/-- A file of lines lists, in order, what is left of each line without the blanks around it, unless
    that is empty or begins as a comment. So the ends of the lines make no difference, and a line
    feed parts a text in two that are read apart. What is listed are stripped names, and these
    written as lines list themselves. A file that is no text lists nothing, and a command that loads
    it breaks off. -/
theorem root_names_of_lines :
    (∀ ls t, Spells ls t → rootNames? (Text.encode t) = some ((ls.map Text.strip).filter fun n =>
      n ≠ "" ∧ ¬ "//".toList <+: n.toList ∧ ¬ "#".toList <+: n.toList)) ∧
    (∀ ls t t', Spells ls t → Spells ls t' →
      rootNames? (Text.encode t) = rootNames? (Text.encode t')) ∧
    (∀ a b, ∃ ns ms, rootNames? (Text.encode a) = some ns ∧ rootNames? (Text.encode b) = some ms ∧
      rootNames? (Text.encode (a ++ "\n" ++ b)) = some (ns ++ ms)) ∧
    (∀ bs ns, rootNames? bs = some ns →
      (∀ n ∈ ns, n ≠ "" ∧ Text.strip n = n ∧ IsLine n ∧
        ¬ "//".toList <+: n.toList ∧ ¬ "#".toList <+: n.toList) ∧
      Spells ns (String.join (ns.map (· ++ "\n"))) ∧
      ∀ t, Spells ns t → rootNames? (Text.encode t) = some ns) ∧
    ∀ bs : Octets, (rootNames? bs = none ↔ ¬ bs.toByteArray.IsValidUTF8) ∧
      (¬ bs.toByteArray.IsValidUTF8 → ∀ (tree : FileTree) (p : FilePath), tree.read p = .ok bs →
        CommandLine.loadRoots tree p = .error (.crash .notText)) := by
  refine ⟨?lines, ?ends, ?parts, ?names, ?files⟩
  case lines =>
    intro ls t h
    rw [rootNames?_encode, h.rootNames_eq, namesOf]
    simp only [← isRootName_iff, Bool.decide_eq_true]
  case ends =>
    intro ls t t' h h'
    rw [rootNames?_encode, rootNames?_encode, h.rootNames_eq, h'.rootNames_eq]
  case parts =>
    intro a b
    refine ⟨_, _, rootNames?_encode a, rootNames?_encode b, ?_⟩
    rw [rootNames?_encode, rootNames_append]
  case names =>
    intro bs ns h
    obtain ⟨ls, hls, rfl⟩ := exists_lines_of_rootNames? h
    have hns := fun n hn => of_mem_namesOf (n := n) hls hn
    refine ⟨?_, spells_join fun n hn => (hns n hn).2.1, ?_⟩
    · intro n hn
      obtain ⟨hstrip, hline, hroot⟩ := hns n hn
      obtain ⟨hne, hcomment⟩ := isRootName_iff.1 hroot
      exact ⟨hne, hstrip, hline, hcomment⟩
    · intro t ht
      have hself := namesOf_eq_self fun n hn => ⟨(hns n hn).1, (hns n hn).2.2⟩
      rw [rootNames?_encode, ht.rootNames_eq, hself]
  case files =>
    intro bs
    refine ⟨rootNames?_eq_none_iff, ?_⟩
    intro hinvalid tree p hread
    unfold CommandLine.loadRoots
    rw [hread]
    simp only [rootNames?_eq_none_iff.2 hinvalid]

/-- Four lines, of which one is empty and one a comment. The end of the first and that of the empty
    one are read as a single end. -/
theorem root_names_of_lines_mixed :
    Spells ["A", "", "// B", " C "] "A\r\n// B\r\n C " ∧
      rootNames? (Text.encode "A\r\n// B\r\n C ") = some ["A", "C"] := by
  have hspells : Spells ["A", "", "// B", " C "] "A\r\n// B\r\n C " := by
    have hlines : ∀ l ∈ ["A", "", "// B", " C "], IsLine l := by
      unfold IsLine
      decide
    simp only [List.forall_mem_cons] at hlines
    obtain ⟨hA, hempty, hB, hC, -⟩ := hlines
    exact .line .carriageReturn hA (.line .lineFeed hempty (.line .both hB (.last hC)))
  obtain ⟨hnames, -⟩ := root_names_of_lines
  refine ⟨hspells, (hnames _ _ hspells).trans ?_⟩
  decide

end TypeAtlas
