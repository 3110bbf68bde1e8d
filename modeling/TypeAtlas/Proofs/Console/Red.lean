import TypeAtlas.Console.Block
import TypeAtlas.Proofs.Console.Layout
import TypeAtlas.Proofs.Console.Shown

/-!
# Text in red

What goes wrong is told in red: the words for it are put between two tags as they are. They are told
as they stand, on one line, if and only if there are no tags and escapes among them, the console
knows no symbol for any code in them, and they fit into its columns. Whatever a tag or a code takes
away is missed in the lines that are written.

Main statement: `Console.text_inRed_eq_iff`.
-/

namespace TypeAtlas.Console

open Markup (isMark isVerbatim codes weight)

/-! ## §1 Lines -/

theorem splitFrom_of_forall {cs : List Char} (h : ∀ c ∈ cs, isPlaced c = true) (acc : List Char) :
    splitFrom acc cs = [acc.reverse ++ cs] := by
  induction cs generalizing acc with
  | nil => simp [splitFrom]
  | cons c cs ih =>
    have hc : c ≠ '\n' := by
      rintro rfl
      simpa [isPlaced] using h '\n' (by simp)
    rw [splitFrom, if_neg hc, ih fun d hd => h d (by simp [hd])]
    simp

theorem withoutTabs_of_forall {cs : List Char} (h : ∀ c ∈ cs, isPlaced c = true) (column : Nat) :
    withoutTabs column cs = cs := by
  induction cs generalizing column with
  | nil => rfl
  | cons c cs ih =>
    have hc : c ≠ '\t' := by
      rintro rfl
      simpa [isPlaced] using h '\t' (by simp)
    rw [withoutTabs, if_neg hc, ih fun d hd => h d (by simp [hd])]

theorem filter_silent_of_forall {cs : List Char} (h : ∀ c ∈ cs, isPlaced c = true) :
    cs.filter (fun c => !Markup.isSilent c) = cs := by
  rw [List.filter_eq_self]
  intro c hc
  simpa [isPlaced] using (by simpa [isPlaced] using h c hc : _ ∧ _).2

/-- A text of characters that take their place is one line before it is laid out. -/
theorem linesOf_of_forall {columns : Nat} (hcolumns : columns ≠ 0) {cs : List Char}
    (h : ∀ c ∈ cs, isPlaced c = true) : linesOf columns cs = laidOut columns cs := by
  rw [linesOf, if_neg hcolumns, splitFrom_of_forall h]
  simp [withoutTabs_of_forall h]

theorem count_flatten_splitFrom {c : Char} (hc : c ≠ '\n') (acc cs : List Char) :
    (splitFrom acc cs).flatten.count c = acc.count c + cs.count c := by
  induction cs generalizing acc with
  | nil => simp [splitFrom]
  | cons d cs ih =>
    rw [splitFrom]
    split
    · next hd => simp [ih, hd, hc.symm]
    · rw [ih]
      simp only [List.count_cons]
      omega

theorem count_withoutTabs_le {c : Char} (hc : c ≠ ' ') (column : Nat) (cs : List Char) :
    (withoutTabs column cs).count c ≤ cs.count c := by
  induction cs generalizing column with
  | nil => exact Nat.le_refl _
  | cons d cs ih =>
    rw [withoutTabs]
    split
    · rw [List.count_append, List.count_replicate, if_neg (by simpa using hc.symm),
        List.count_cons]
      exact Nat.le_trans (by rw [Nat.zero_add]; exact ih _) (Nat.le_add_right _ _)
    · rw [List.count_cons, List.count_cons]
      exact Nat.add_le_add_right (ih _) _

/-- Laying a text out adds no marks. -/
theorem count_linesOf_le {m : Char} (hm : isMark m = true) (columns : Nat) (cs : List Char) :
    (linesOf columns cs).flatten.count m ≤ cs.count m := by
  have hblank : m ≠ ' ' := Markup.ne_of_isMark hm (by decide)
  have hfeed : m ≠ '\n' := Markup.ne_of_isMark hm (by decide)
  have hlines : ∀ ls : List (List Char),
      (ls.flatMap fun line => laidOut columns (withoutTabs 0 line)).flatten.count m ≤
        ls.flatten.count m := by
    intro ls
    induction ls with
    | nil => simp
    | cons line ls ih =>
      have hline := Nat.le_trans (count_laidOut_le hblank columns (withoutTabs 0 line))
        (count_withoutTabs_le hblank 0 line)
      simp only [List.flatMap_cons, List.flatten_append, List.flatten_cons, List.count_append]
      omega
  unfold linesOf
  split
  · simp
  · have hall := hlines (splitFrom [] cs)
    rwa [count_flatten_splitFrom hfeed, List.count_nil, Nat.zero_add] at hall

theorem count_unlines {m : Char} (hm : m ≠ '\n') (ls : List (List Char)) :
    (unlines ls).toList.count m = ls.flatten.count m := by
  rw [unlines, String.toList_ofList]
  induction ls with
  | nil => rfl
  | cons line ls ih => simp [ih, hm.symm]

/-- One line is written for one line. -/
theorem unlines_eq_iff {ls : List (List Char)} {text : String} (hls : '\n' ∉ ls.flatten)
    (htext : '\n' ∉ text.toList) : unlines ls = text ++ "\n" ↔ ls = [text.toList] := by
  apply Iff.intro
  · intro h
    have hlist : ls.flatMap (· ++ ['\n']) = text.toList ++ ['\n'] := by
      simpa [unlines] using congrArg String.toList h
    match ls, hls, hlist with
    | [], _, h => simp at h
    | [line], _, h =>
      rw [List.flatMap_singleton] at h
      rw [List.append_cancel_right h]
    | line :: line' :: rest, hls, h =>
      -- two lines have two ends
      have hcount := congrArg (List.count '\n') h
      simp [List.count_eq_zero.2 htext] at hcount
      omega
  · rintro rfl
    simp [unlines]

/-! ## §2 The two tags -/

/-- A text between two tags for red. -/
def inRed (text : String) : String := "[red]" ++ text ++ "[/red]"

/-- The text of the tag that closes. -/
def closeRed : List Char := ['/', 'r', 'e', 'd']

theorem tagBody?_closeRed : Markup.tagBody? (closeRed ++ [']']) = some closeRed := by decide

theorem toList_inRed (text : String) : (inRed text).toList =
    '[' :: 'r' :: 'e' :: 'd' :: ']' :: (text.toList ++ '[' :: (closeRed ++ [']'])) := by
  simp [inRed, closeRed]

theorem ofBody_openRed : Markup.Tag.ofBody ['r', 'e', 'd'] = .opening "red" := by decide +kernel

theorem ofBody_closeRed : Markup.Tag.ofBody closeRed = .closing "red" := by decide +kernel

/-- The tag for red text stays open behind itself. -/
theorem plainChars?_inRed (symbols : Markup.Symbols) (text : String) :
    Markup.plainChars? symbols (inRed text) =
      (Markup.settle? ["red"] ((Markup.joined (Markup.piecesFrom 0 0
        (text.toList ++ '[' :: (closeRed ++ [']'])))).map (Markup.Piece.withSymbols symbols))).map
          fun cs => cs.filter fun c => !Markup.isSilent c := by
  have htag : ∀ cs, Markup.tagBody? ('r' :: 'e' :: 'd' :: ']' :: cs) = some ['r', 'e', 'd'] :=
    fun cs => rfl
  rw [Markup.plainChars?, Markup.pieces, toList_inRed,
    Markup.piecesFrom_of_tagBody? 0 (htag _) rfl]
  simp [Markup.bracket, Markup.joined, Markup.consPlain, Markup.Piece.withSymbols, ofBody_openRed,
    Markup.backslashes, Markup.Symbols.replace, Markup.Symbols.replaceFrom, Markup.settle?]

/-! ## §3 What is told -/

variable {d : Device} {text : String}

/-- A line is not written only if its tags are not in order. -/
theorem text_line_of_error {markup : String} {fault : Fault}
    (h : (Block.line markup).text d = .error fault) : fault = .brokenMarkup := by
  rw [Block.text] at h
  cases hlines : lines? d.symbols d.columns markup with
  | none =>
    rw [hlines] at h
    exact (Except.error.inj h).symm
  | some ls =>
    rw [hlines] at h
    cases h

/-- A text without tags, escapes and known codes is laid out as it stands. -/
theorem text_inRed_of_isVerbatim (hplaced : ∀ c ∈ text.toList, isPlaced c = true)
    (hverbatim : isVerbatim text.toList = true)
    (hcodes : ∀ body ∈ codes text.toList, d.symbols.ofCode? body = none) :
    (Block.line (inRed text)).text d = .ok (unlines (linesOf d.columns text.toList)) := by
  have hclose : ∀ cs, Markup.settle? ["red"] [.plain cs, .tag (.closing "red"), .plain []] =
      some cs := fun cs => by simp [Markup.settle?]
  rw [Block.text, lines?, plainChars?_inRed,
    Markup.joined_piecesFrom_of_isVerbatim tagBody?_closeRed hverbatim (.inl rfl)]
  simp only [List.map_cons, List.map_nil, Markup.Piece.withSymbols, ofBody_closeRed,
    Markup.backslashes, List.replicate_zero, List.nil_append,
    Markup.Symbols.replace_of_unknown hcodes]
  rw [show d.symbols.replace [] = [] from rfl, hclose, Option.map_some, Option.map_some,
    filter_silent_of_forall hplaced]
  rfl

/-- What a text in red is written as, in case that it is written. -/
theorem exists_settled_of_text_inRed {out : String}
    (h : (Block.line (inRed text)).text d = .ok out) :
    ∃ settled, Markup.settle? ["red"] ((Markup.joined (Markup.piecesFrom 0 0
        (text.toList ++ '[' :: (closeRed ++ [']'])))).map (Markup.Piece.withSymbols d.symbols)) =
          some settled ∧
      out = unlines (linesOf d.columns (settled.filter fun c => !Markup.isSilent c)) := by
  rw [Block.text, lines?, plainChars?_inRed] at h
  generalize hsettle : Markup.settle? ["red"] _ = settled? at h ⊢
  cases settled? with
  | none => cases h
  | some settled => exact ⟨settled, rfl, (Except.ok.inj h).symm⟩

/-- Neither tags nor codes nor the layout add marks to what is left of a text. -/
theorem count_unlines_linesOf_le {m : Char} (hm : isMark m = true) (settled : List Char) :
    (unlines (linesOf d.columns (settled.filter fun c => !Markup.isSilent c))).toList.count m ≤
      settled.count m := by
  rw [count_unlines (Markup.ne_of_isMark hm (by decide))]
  exact Nat.le_trans (count_linesOf_le hm _ _) (List.filter_sublist.count_le m)

theorem count_toList_append_feed {m : Char} (hm : isMark m = true) :
    (text ++ "\n").toList.count m = text.toList.count m := by
  have hfeed : m ≠ '\n' := Markup.ne_of_isMark hm (by decide)
  simp [hfeed.symm]

/-- A text that is told as it stands has no tags and escapes. -/
theorem isVerbatim_of_text_inRed (h : (Block.line (inRed text)).text d = .ok (text ++ "\n")) :
    isVerbatim text.toList = true := by
  obtain ⟨settled, hsettle, hout⟩ := exists_settled_of_text_inRed h
  cases hverbatim : isVerbatim text.toList with
  | true => rfl
  | false =>
    have hlt := Markup.weight_left_lt tagBody?_closeRed (by decide) hverbatim hsettle
    have hslash := count_unlines_linesOf_le (d := d) (m := '\\') (by decide) settled
    have hbracket := count_unlines_linesOf_le (d := d) (m := '[') (by decide) settled
    rw [← hout, count_toList_append_feed (by decide)] at hslash hbracket
    unfold weight at hlt
    omega

/-- A text that is told as it stands has no codes that are known. -/
theorem unknown_of_text_inRed (h : (Block.line (inRed text)).text d = .ok (text ++ "\n")) :
    ∀ body ∈ codes text.toList, d.symbols.ofCode? body = none := by
  obtain ⟨settled, hsettle, hout⟩ := exists_settled_of_text_inRed h
  rw [Markup.joined_piecesFrom_of_isVerbatim tagBody?_closeRed (isVerbatim_of_text_inRed h)
    (.inl rfl)] at hsettle
  have hsettled : settled = d.symbols.replace text.toList := by
    simpa [Markup.settle?, Markup.Piece.withSymbols, ofBody_closeRed, Markup.backslashes,
      Markup.Symbols.replace, Markup.Symbols.replaceFrom] using hsettle.symm
  intro body hbody
  cases hcode : d.symbols.ofCode? body with
  | none => rfl
  | some cs =>
    -- a symbol takes two colons away
    have hlt := d.symbols.count_replace_lt ⟨body, hbody, by simp [hcode]⟩
    have hle := count_unlines_linesOf_le (d := d) (m := ':') (by decide) settled
    rw [← hout, count_toList_append_feed (by decide), hsettled] at hle
    omega

/-- A text in red is told as it stands if and only if it has no tags, escapes and known codes and
    fits into the columns. -/
theorem text_inRed_eq_iff (hplaced : ∀ c ∈ text.toList, isPlaced c = true)
    (hwidth : 0 < Text.width text.toList) :
    (Block.line (inRed text)).text d = .ok (text ++ "\n") ↔
      isVerbatim text.toList = true ∧
        (∀ body ∈ codes text.toList, d.symbols.ofCode? body = none) ∧
        Fits d.columns text.toList := by
  have hfeed : '\n' ∉ text.toList := fun hmem => by simpa [isPlaced] using hplaced _ hmem
  have hlaid : '\n' ∉ (laidOut d.columns text.toList).flatten := fun hmem => by
    have hle := count_laidOut_le (c := '\n') (by decide) d.columns text.toList
    have hpos := List.count_pos_iff.2 hmem
    rw [List.count_eq_zero.2 hfeed] at hle
    omega
  apply Iff.intro
  · intro h
    have hverbatim := isVerbatim_of_text_inRed h
    have hcodes := unknown_of_text_inRed h
    rw [text_inRed_of_isVerbatim hplaced hverbatim hcodes] at h
    have hcolumns : d.columns ≠ 0 := by
      intro hzero
      have hnothing := congrArg (·.toList.length) (Except.ok.inj h)
      simp [linesOf, hzero, unlines] at hnothing
    rw [linesOf_of_forall hcolumns hplaced, Except.ok.injEq, unlines_eq_iff hlaid hfeed,
      laidOut_eq_singleton_iff] at h
    exact ⟨hverbatim, hcodes, h⟩
  · rintro ⟨hverbatim, hcodes, hfits⟩
    rw [text_inRed_of_isVerbatim hplaced hverbatim hcodes,
      linesOf_of_forall (hfits.columns_ne_zero hwidth) hplaced, Except.ok.injEq,
      unlines_eq_iff hlaid hfeed, laidOut_eq_singleton_iff]
    exact hfits

end TypeAtlas.Console
