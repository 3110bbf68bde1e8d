import TypeAtlas.Console.Layout

/-!
# Lines that fit

A line that fits into the columns of a console is laid out on a line of its own, as it is. One that
does not is broken, or loses blanks at its end, or is cut off, so that no line is wider than the
console. Nothing but blanks is added by that.

Main statements: `Console.laidOut_eq_singleton_iff`, `Console.width_le_of_mem_laidOut` and
`Console.count_laidOut_le`.
-/

namespace TypeAtlas

namespace Console

open Text

/-! ## §1 Breaking loses nothing -/

/-- The characters in a stack of texts, latest text and latest character first. -/
def unstacked (stack : List (List Char)) : List Char := (stack.map List.reverse).reverse.flatten

@[simp] theorem unstacked_nil : unstacked [] = [] := rfl

@[simp] theorem unstacked_cons (text : List Char) (stack : List (List Char)) :
    unstacked (text :: stack) = unstacked stack ++ text.reverse := by
  simp [unstacked]

theorem unstacked_addToWords (stack : List (List Char)) (c : Char) :
    unstacked (addToWords stack c) = unstacked stack ++ [c] := by
  cases stack with
  | nil => rfl
  | cons word rest =>
    rw [addToWords]
    split <;> simp

theorem unstacked_addToChunks (columns : Nat) (stack : List (List Char)) (c : Char) :
    unstacked (addToChunks columns stack c) = unstacked stack ++ [c] := by
  cases stack with
  | nil => rfl
  | cons chunk rest =>
    rw [addToChunks]
    split <;> simp

/-- If adding a character puts it behind all that is there, then adding a text puts all of it
    behind. -/
theorem unstacked_foldl {add : List (List Char) → Char → List (List Char)}
    (hadd : ∀ stack c, unstacked (add stack c) = unstacked stack ++ [c]) (cs : List Char)
    (stack : List (List Char)) : unstacked (cs.foldl add stack) = unstacked stack ++ cs := by
  induction cs generalizing stack with
  | nil => simp
  | cons c cs ih => rw [List.foldl_cons, ih, hadd, List.append_assoc, List.singleton_append]

theorem flatten_words (line : List Char) : (words line).flatten = line :=
  unstacked_foldl unstacked_addToWords line []

theorem flatten_chunks (columns : Nat) (word : List Char) : (chunks columns word).flatten = word :=
  unstacked_foldl (unstacked_addToChunks columns) word [[]]

theorem flatten_dropWhile_isEmpty (ls : List (List Char)) :
    (ls.dropWhile List.isEmpty).flatten = ls.flatten := by
  induction ls with
  | nil => rfl
  | cons l ls ih =>
    rw [List.dropWhile_cons]
    split
    · next h => simp [ih, List.isEmpty_iff.1 h]
    · rfl

theorem flatten_reverse_addWord (columns : Nat) (ls : List (List Char)) (word : List Char) :
    (addWord columns ls word).reverse.flatten = ls.reverse.flatten ++ word := by
  cases ls with
  | nil =>
    simp only [addWord]
    split <;> simp [flatten_dropWhile_isEmpty, flatten_chunks]
  | cons line rest =>
    simp only [addWord]
    split
    · simp
    · split <;> simp [flatten_chunks]

/-- A broken line has all its characters. -/
theorem flatten_broken (columns : Nat) (line : List Char) :
    (broken columns line).flatten = line := by
  have hfold : ∀ (ws ls : List (List Char)),
      (ws.foldl (addWord columns) ls).reverse.flatten = ls.reverse.flatten ++ ws.flatten := by
    intro ws
    induction ws with
    | nil => simp
    | cons w ws ih =>
      intro ls
      rw [List.foldl_cons, ih, flatten_reverse_addWord, List.flatten_cons, List.append_assoc]
  have hall := hfold (words line) []
  rw [flatten_words] at hall
  unfold broken
  split
  · next h =>
    rw [h] at hall
    simpa using hall
  · simpa using hall

/-! ## §2 Lines that fit -/

/-- A line fits into so many columns: it is not wider, and if it has more characters than there are
    columns, it does not end with a blank. -/
structure Fits (columns : Nat) (line : List Char) : Prop where
  width : Text.width line ≤ columns
  ending : columns < line.length → ∀ c ∈ line.getLast?, isBlank c = false

theorem Fits.columns_ne_zero {columns : Nat} {line : List Char} (h : Fits columns line)
    (hwidth : 0 < Text.width line) : columns ≠ 0 := by
  have := h.width
  omega

theorem checks_iff_fits {columns : Nat} {line : List Char} :
    (decide (Text.width line ≤ columns) && (decide (line.length ≤ columns) ||
      line.getLast?.all fun c => !isBlank c)) = true ↔ Fits columns line := by
  simp only [Bool.and_eq_true, Bool.or_eq_true, decide_eq_true_eq, Option.all_eq_true,
    Bool.not_eq_true']
  apply Iff.intro
  · exact fun h => ⟨h.1, fun hlong => h.2.resolve_left (by omega)⟩
  · exact fun h => ⟨h.width, (Nat.lt_or_ge columns line.length).symm.imp_right h.ending⟩

instance (columns : Nat) (line : List Char) : Decidable (Fits columns line) :=
  decidable_of_iff _ checks_iff_fits

theorem width_le_of_begins {cs ds : List Char} (h : cs <+: ds) : width cs ≤ width ds := by
  obtain ⟨rest, rfl⟩ := h
  simp

theorem trimEnd_begins (cs : List Char) : trimEnd cs <+: cs := by
  have h := List.dropWhile_suffix isBlank (l := cs.reverse)
  rw [← List.reverse_prefix, List.reverse_reverse] at h
  exact h

/-- A line that is not too wide is not broken. -/
theorem broken_of_width_le {columns : Nat} {line : List Char} (h : width line ≤ columns) :
    broken columns line = [line] := by
  -- what follows goes to the one line that there is
  have hfold : ∀ (ws : List (List Char)) (p : List Char), width (p ++ ws.flatten) ≤ columns →
      ws.foldl (addWord columns) [p] = [p ++ ws.flatten] := by
    intro ws
    induction ws with
    | nil => simp
    | cons w ws ih =>
      intro p hp
      have hown : width (trimEnd w) ≤ width w := width_le_of_begins (trimEnd_begins w)
      simp only [List.flatten_cons, width_append] at hp
      rw [List.foldl_cons, addWord]
      simp only [if_pos (by omega : width p + width (trimEnd w) ≤ columns)]
      rw [ih (p ++ w) (by simp only [width_append]; omega), List.flatten_cons, List.append_assoc]
  have hwords := flatten_words line
  unfold broken
  cases hw : words line with
  | nil =>
    rw [hw] at hwords
    simp [← hwords]
  | cons w ws =>
    rw [hw, List.flatten_cons] at hwords
    subst hwords
    have hown : width (trimEnd w) ≤ width w := width_le_of_begins (trimEnd_begins w)
    rw [width_append] at h
    rw [List.foldl_cons, addWord]
    simp only [if_pos (by omega : width (trimEnd w) ≤ columns)]
    rw [hfold ws w (by simpa using h)]
    rfl

theorem trimExcess_begins (columns : Nat) (cs : List Char) : trimExcess columns cs <+: cs :=
  List.take_prefix _ _

/-- No blank is cut off that is not too many. -/
theorem trimExcess_eq_self_iff {columns : Nat} {cs : List Char} :
    trimExcess columns cs = cs ↔
      (columns < cs.length → ∀ c ∈ cs.getLast?, isBlank c = false) := by
  have hlength := (trimEnd_begins cs).length_le
  have hkept : trimEnd cs = cs ↔ ∀ c ∈ cs.getLast?, isBlank c = false := by
    have h : cs.reverse.dropWhile isBlank = cs.reverse ↔ _ := dropWhile_eq_self_iff
    rw [List.head?_reverse] at h
    rw [← h, trimEnd, dropBlanks, List.reverse_eq_iff]
  have hfull : (trimEnd cs).length = cs.length ↔ trimEnd cs = cs :=
    ⟨(trimEnd_begins cs).eq_of_length, congrArg List.length⟩
  have htake : ∀ n, cs.take n = cs ↔ cs.length ≤ n := by
    intro n
    refine ⟨fun h => ?_, List.take_of_length_le⟩
    have hlen := congrArg List.length h
    rw [List.length_take] at hlen
    omega
  rw [trimExcess, htake, ← hkept, ← hfull]
  omega

/-! ## §3 Lines that are cut -/

theorem width_cutSearch_le (columns : Nat) (cs : List Char) (rounds low high : Nat) :
    width (cutSearch columns cs rounds low high) ≤ columns := by
  fun_induction cutSearch columns cs rounds low high with
  | case1 => simp
  | case2 rounds low high middle before h =>
    -- a character of two columns makes room for a blank
    simp only [Bool.and_eq_true, decide_eq_true_eq, Option.any_eq_true, beq_iff_eq] at h
    obtain ⟨hwide, c, hc, htwo⟩ := h
    obtain ⟨front, hfront⟩ := List.getLast?_eq_some_iff.1 hc
    have hblank : charWidth ' ' = 1 := by decide
    rw [hfront] at hwide
    rw [hfront, List.dropLast_concat]
    simp only [width_append, width_cons, width_nil] at hwide ⊢
    omega
  | case3 rounds low high middle before _ h => exact Nat.le_of_eq h
  | case4 rounds low high middle before _ _ _ ih => exact ih
  | case5 rounds low high middle before _ _ _ ih => exact ih

theorem width_cut_le (columns : Nat) (cs : List Char) : width (cut columns cs) ≤ columns := by
  unfold cut
  split
  · assumption
  · exact width_cutSearch_le _ _ _ _ _

/-- No line is wider than the console. -/
theorem width_le_of_mem_laidOut {columns : Nat} {line part : List Char}
    (h : part ∈ laidOut columns line) : width part ≤ columns := by
  obtain ⟨whole, -, rfl⟩ := List.mem_map.1 h
  exact width_cut_le columns _

/-- A line is laid out as it is exactly if it fits. -/
theorem laidOut_eq_singleton_iff {columns : Nat} {line : List Char} :
    laidOut columns line = [line] ↔ Fits columns line := by
  apply Iff.intro
  · intro h
    obtain ⟨whole, hbroken, hcut⟩ := List.map_eq_singleton_iff.1 h
    have hwhole := flatten_broken columns line
    rw [hbroken, List.flatten_singleton] at hwhole
    subst hwhole
    have hwidth : width whole ≤ columns := by
      rw [← hcut]
      exact width_cut_le columns _
    refine ⟨hwidth, trimExcess_eq_self_iff.1 ?_⟩
    -- what is left without the blanks is not too wide either, so nothing was cut
    have htrimmed := Nat.le_trans (width_le_of_begins (trimExcess_begins columns whole)) hwidth
    rwa [cut, if_pos htrimmed] at hcut
  · intro h
    rw [laidOut, broken_of_width_le h.width, List.map_singleton,
      trimExcess_eq_self_iff.2 h.ending, cut, if_pos h.width]

/-! ## §4 Nothing but blanks is added -/

theorem count_cutSearch_le {c : Char} (hc : c ≠ ' ') (columns : Nat) (cs : List Char)
    (rounds low high : Nat) : (cutSearch columns cs rounds low high).count c ≤ cs.count c := by
  fun_induction cutSearch columns cs rounds low high with
  | case1 => simp
  | case2 rounds low high middle before h =>
    have hless : before.dropLast.count c ≤ cs.count c :=
      ((List.dropLast_sublist _).trans (List.take_sublist _ _)).count_le c
    simpa [hc.symm] using hless
  | case3 => exact (List.take_sublist _ _).count_le c
  | case4 rounds low high middle before _ _ _ ih => exact ih
  | case5 rounds low high middle before _ _ _ ih => exact ih

theorem count_laidOut_le {c : Char} (hc : c ≠ ' ') (columns : Nat) (line : List Char) :
    (laidOut columns line).flatten.count c ≤ line.count c := by
  have hcut : ∀ cs, (cut columns (trimExcess columns cs)).count c ≤ cs.count c := by
    intro cs
    have htrim := ((trimExcess_begins columns cs).sublist).count_le c
    unfold cut
    split
    · exact htrim
    · exact Nat.le_trans (count_cutSearch_le hc _ _ _ _ _) htrim
  have hparts : ∀ parts : List (List Char),
      ((parts.map fun part => cut columns (trimExcess columns part)).flatten).count c ≤
        parts.flatten.count c := by
    intro parts
    induction parts with
    | nil => simp
    | cons part parts ih =>
      have hone := hcut part
      simp only [List.map_cons, List.flatten_cons, List.count_append]
      omega
  have hall := hparts (broken columns line)
  rwa [flatten_broken] at hall

end Console

end TypeAtlas
