import TypeAtlas.Proofs.Console.Verbatim

/-!
# Text that is shown as it stands

Some characters are shown as they stand whatever they are joined to: there is no control character
among them, no backslash, no bracket that opens a tag, and no colon but before a blank. In front of
another text they have no part in what becomes of it.

Main statements: `Console.isVerbatim_append` and `Console.codes_append`.
-/

namespace TypeAtlas

namespace Console

/-! ## §1 Shown text -/

/-- Whether a character takes its place on a line as it is, if it has no meaning for the tags. -/
def isPlaced (c : Char) : Bool := c != '\n' && c != '\t' && !Markup.isSilent c

/-- Whether a bracket in front of the characters opens no tag, whatever follows them. -/
def opensNoTag : List Char → Bool
  | [] => false
  | c :: _ => !Markup.isTagStart c

/-- Whether a colon in front of the characters begins no code, whatever follows them. -/
def beginsNoCode : List Char → Bool
  | [] => false
  | c :: _ => Text.isBlank c

/-- Whether the characters are shown as they are, whatever follows them. -/
def isShown : List Char → Bool
  | [] => true
  | c :: cs =>
    isPlaced c && c != '\\' && (c != '[' || opensNoTag cs) && (c != ':' || beginsNoCode cs) &&
      isShown cs

theorem isShown_cons {c : Char} {cs : List Char} : isShown (c :: cs) = true ↔
    isPlaced c = true ∧ c ≠ '\\' ∧ (c = '[' → opensNoTag cs = true) ∧
      (c = ':' → beginsNoCode cs = true) ∧ isShown cs = true := by
  simp [isShown, and_assoc, Decidable.imp_iff_not_or]

theorem opensNoTag_append {cs : List Char} (h : opensNoTag cs = true) (ds : List Char) :
    opensNoTag (cs ++ ds) = true := by
  cases cs with
  | nil => cases h
  | cons c cs => exact h

theorem beginsNoCode_append {cs : List Char} (h : beginsNoCode cs = true) (ds : List Char) :
    beginsNoCode (cs ++ ds) = true := by
  cases cs with
  | nil => cases h
  | cons c cs => exact h

theorem isShown_append {cs ds : List Char} (hcs : isShown cs = true) (hds : isShown ds = true) :
    isShown (cs ++ ds) = true := by
  induction cs with
  | nil => exact hds
  | cons c cs ih =>
    obtain ⟨hc, hslash, hbracket, hcolon, hcs⟩ := isShown_cons.1 hcs
    exact isShown_cons.2 ⟨hc, hslash, fun h => opensNoTag_append (hbracket h) ds,
      fun h => beginsNoCode_append (hcolon h) ds, ih hcs⟩

theorem isShown_append_toList {s t : String} (hs : isShown s.toList = true)
    (ht : isShown t.toList = true) : isShown (s ++ t).toList = true := by
  rw [String.toList_append]
  exact isShown_append hs ht

theorem isShown_of_forall {cs : List Char}
    (h : ∀ c ∈ cs, isPlaced c = true ∧ c ≠ '\\' ∧ c ≠ '[' ∧ c ≠ ':') : isShown cs = true := by
  induction cs with
  | nil => rfl
  | cons c cs ih =>
    obtain ⟨hc, hslash, hbracket, hcolon⟩ := h c (by simp)
    exact isShown_cons.2 ⟨hc, hslash, fun h => absurd h hbracket, fun h => absurd h hcolon,
      ih fun d hd => h d (by simp [hd])⟩

theorem isPlaced_of_isShown {cs : List Char} (h : isShown cs = true) :
    ∀ c ∈ cs, isPlaced c = true := by
  induction cs with
  | nil => exact nofun
  | cons c cs ih =>
    obtain ⟨hc, -, -, -, hcs⟩ := isShown_cons.1 h
    exact List.forall_mem_cons.2 ⟨hc, ih hcs⟩

/-! ## §2 Tags and codes -/

theorem tagBody?_append {cs : List Char} (h : opensNoTag cs = true) (ds : List Char) :
    Markup.tagBody? (cs ++ ds) = none := by
  cases cs with
  | nil => cases h
  | cons c cs =>
    have hc : Markup.isTagStart c = false := by simpa [opensNoTag] using h
    simp [Markup.tagBody?, hc]

theorem upToColon?_append {cs : List Char} (h : beginsNoCode cs = true) (ds : List Char) :
    Markup.Symbols.upToColon? (cs ++ ds) = none := by
  cases cs with
  | nil => cases h
  | cons c cs =>
    have hblank : Text.isBlank c = true := h
    have hcolon : c ≠ ':' := by
      rintro rfl
      exact absurd hblank (by decide)
    simp [Markup.Symbols.upToColon?, hcolon, hblank]

/-- Shown characters have no tags and escapes, and make none of what follows them. -/
theorem isVerbatim_append {cs : List Char} (h : isShown cs = true) (ds : List Char) :
    Markup.isVerbatim (cs ++ ds) = Markup.isVerbatim ds := by
  induction cs with
  | nil => rfl
  | cons c cs ih =>
    obtain ⟨-, hslash, hbracket, -, hcs⟩ := isShown_cons.1 h
    rw [List.cons_append, Markup.isVerbatim, ih hcs]
    by_cases hopen : c = '['
    · simp [hopen, tagBody?_append (hbracket hopen) ds]
    · simp [hopen, hslash]

/-- Shown characters have no codes, and make none of what follows them. -/
theorem codes_append {cs : List Char} (h : isShown cs = true) (ds : List Char) :
    Markup.codes (cs ++ ds) = Markup.codes ds := by
  induction cs with
  | nil => rfl
  | cons c cs ih =>
    obtain ⟨-, -, -, hcolon, hcs⟩ := isShown_cons.1 h
    have hcode : Markup.Symbols.codeBody? c (cs ++ ds) = none := by
      unfold Markup.Symbols.codeBody?
      split
      · next hc => exact upToColon?_append (hcolon hc) ds
      · rfl
    rw [List.cons_append, Markup.codes, Markup.codesFrom]
    simp only [hcode]
    exact ih hcs

theorem isVerbatim_of_isShown {cs : List Char} (h : isShown cs = true) :
    Markup.isVerbatim cs = true := by
  simpa [Markup.isVerbatim] using isVerbatim_append h []

theorem codes_of_isShown {cs : List Char} (h : isShown cs = true) : Markup.codes cs = [] := by
  simpa [Markup.codes, Markup.codesFrom] using codes_append h []

end Console

end TypeAtlas
