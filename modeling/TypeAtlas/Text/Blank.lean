/-!
# Blanks

The characters that count as white space around a name, and the text without them at its ends.

Main statements: `strip_eq_self_iff` says which texts are unchanged, and `strip_strip` that a
second stripping changes nothing.
-/

namespace TypeAtlas.Text

/-! ## §1 The class of blanks -/

/-- The code points of white space: the controls that separate words, lines, pages and records,
    the space characters of every width, and the line and paragraph separators. -/
def blankRanges : List (Nat × Nat) :=
  [(0x09, 0x0D), (0x1C, 0x20), (0x85, 0x85), (0xA0, 0xA0), (0x1680, 0x1680), (0x2000, 0x200A),
   (0x2028, 0x2029), (0x202F, 0x202F), (0x205F, 0x205F), (0x3000, 0x3000)]

/-- Whether a code point lies in one of the given closed ranges. -/
def inRanges (ranges : List (Nat × Nat)) (n : Nat) : Bool :=
  ranges.any fun r => r.1 ≤ n && n ≤ r.2

/-- Whether a character is white space. -/
def isBlank (c : Char) : Bool := inRanges blankRanges c.toNat

/-! ## §2 Stripping -/

/-- The characters without the blanks at the front. -/
def dropBlanks (cs : List Char) : List Char := cs.dropWhile isBlank

/-- The characters without the blanks at both ends. -/
def stripChars (cs : List Char) : List Char :=
  (dropBlanks (dropBlanks cs).reverse).reverse

/-- The text without the blanks at both ends. -/
def strip (s : String) : String := String.ofList (stripChars s.toList)

theorem dropWhile_eq_self_iff {α : Type} {p : α → Bool} {xs : List α} :
    xs.dropWhile p = xs ↔ ∀ a ∈ xs.head?, p a = false := by
  cases xs with
  | nil => simp
  | cons x xs =>
    rw [List.dropWhile_cons]
    split
    · next h =>
      constructor
      · intro e
        have := (List.dropWhile_sublist p (l := xs)).length_le
        rw [e] at this
        exact absurd this (by simp)
      · simp [h]
    · next h => simp [h]

theorem head?_dropWhile {α : Type} {p : α → Bool} {xs : List α} :
    ∀ a ∈ (xs.dropWhile p).head?, p a = false := by
  induction xs with
  | nil => simp
  | cons x xs ih =>
    rw [List.dropWhile_cons]
    split
    · exact ih
    · next h => simp [h]

/-- A text is its own stripped form exactly when neither end is blank. -/
theorem stripChars_eq_self_iff {cs : List Char} :
    stripChars cs = cs ↔
      (∀ c ∈ cs.head?, isBlank c = false) ∧ ∀ c ∈ cs.getLast?, isBlank c = false := by
  constructor
  · intro h
    -- nothing is dropped at the end, so nothing is at the front either
    have front : ∀ c ∈ cs.head?, isBlank c = false := by
      apply dropWhile_eq_self_iff.1
      refine (List.dropWhile_sublist isBlank (l := cs)).eq_of_length_le ?_
      have l1 : cs.length = (stripChars cs).length := by rw [h]
      have l2 : (stripChars cs).length ≤ (dropBlanks cs).length := by
        rw [stripChars, List.length_reverse]
        refine Nat.le_trans (List.dropWhile_sublist _).length_le ?_
        simp
      exact l1 ▸ l2
    refine ⟨front, ?_⟩
    rw [← h, stripChars, List.getLast?_reverse]
    exact head?_dropWhile
  · rintro ⟨hf, hl⟩
    rw [stripChars, dropBlanks, dropBlanks, dropWhile_eq_self_iff.2 hf,
      dropWhile_eq_self_iff.2 (by simpa [List.head?_reverse] using hl), List.reverse_reverse]

/-- A stripped text stays as it is. -/
theorem stripChars_stripChars (cs : List Char) : stripChars (stripChars cs) = stripChars cs := by
  rw [stripChars_eq_self_iff]
  constructor
  · have hf : ∀ c ∈ (dropBlanks cs).head?, isBlank c = false := head?_dropWhile
    intro c hc
    apply hf c
    rw [stripChars, dropBlanks, List.head?_reverse] at hc
    -- The first character survives the trimming of the other end unless everything goes.
    cases hd : dropBlanks cs with
    | nil => rw [hd] at hc; simp at hc
    | cons x xs =>
      rw [hd] at hc
      have hsuf : (x :: xs).reverse.dropWhile isBlank <:+ (x :: xs).reverse :=
        List.dropWhile_suffix _
      obtain ⟨t, ht⟩ := hsuf
      have hne : (x :: xs).reverse.dropWhile isBlank ≠ [] := by
        intro e; rw [e] at hc; simp at hc
      have hlast : ((x :: xs).reverse).getLast? =
          ((x :: xs).reverse.dropWhile isBlank).getLast? := by
        conv => lhs; rw [← ht]
        rw [List.getLast?_append, Option.or_of_isSome (by simpa using hne)]
      rw [← hlast] at hc
      simpa using hc
  · rw [stripChars, List.getLast?_reverse]
    exact head?_dropWhile

/-- Blanks around a text make no difference to its stripped form. -/
theorem stripChars_surround {before cs after : List Char}
    (hbefore : ∀ c ∈ before, isBlank c = true) (hafter : ∀ c ∈ after, isBlank c = true) :
    stripChars (before ++ cs ++ after) = stripChars cs := by
  have hend : ∀ c ∈ after.reverse, isBlank c = true := fun c hc =>
    hafter c (List.mem_reverse.1 hc)
  unfold stripChars dropBlanks
  rw [List.append_assoc, List.dropWhile_append_of_pos hbefore, List.dropWhile_append]
  split
  case isTrue hall =>
    -- nothing but blanks, at whichever end they are looked for
    have hnone : (after ++ []).dropWhile isBlank = [] := List.dropWhile_append_of_pos hafter
    rw [List.append_nil] at hnone
    rw [hnone, List.isEmpty_iff.1 hall]
  case isFalse =>
    rw [List.reverse_append, List.dropWhile_append_of_pos hend]

/-- A second stripping changes nothing. -/
theorem strip_strip (s : String) : strip (strip s) = strip s := by
  simp [strip, stripChars_stripChars]

/-- A text is found again between the blanks around it. -/
theorem strip_surround {before s after : String} (hbefore : ∀ c ∈ before.toList, isBlank c = true)
    (hafter : ∀ c ∈ after.toList, isBlank c = true) : strip (before ++ s ++ after) = strip s := by
  unfold strip
  rw [String.toList_append, String.toList_append, stripChars_surround hbefore hafter]

end TypeAtlas.Text
