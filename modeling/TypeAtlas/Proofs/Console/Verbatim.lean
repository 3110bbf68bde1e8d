import TypeAtlas.Proofs.Console.Symbols

/-!
# Text before a last tag

A text that is put in front of a tag stays in one piece if no bracket in it opens a tag and no
backslash stands before a bracket, be it one of the text or the one of the tag behind it. Anything
else takes something away that no symbol brings back: a tag vanishes, or a backslash does.

Main statements: `Markup.joined_piecesFrom_of_isVerbatim` and `Markup.weight_left_lt`.
-/

namespace TypeAtlas.Markup

/-! ## §1 Texts that are left alone -/

/-- Whether no backslash at the end of a run would touch a bracket: something other than a bracket
    follows. -/
def shieldsRun (cs : List Char) : Bool := cs.head?.any fun c => c != '['

/-- Whether a text before a tag is shown as it stands: no bracket in it opens a tag, and no
    backslash stands before a bracket or at the end. -/
def isVerbatim : List Char → Bool
  | [] => true
  | c :: cs =>
    (c != '[' || (tagBody? cs).isNone) && (c != '\\' || shieldsRun cs) && isVerbatim cs

theorem upToBracket?_eq_some {cs body : List Char} (h : upToBracket? cs = some body) :
    ∃ rest, cs = body ++ ']' :: rest := by
  induction cs generalizing body with
  | nil => cases h
  | cons c cs ih =>
    unfold upToBracket? at h
    split at h
    case h_1 => cases h
    case h_2 heq =>
      cases h
      cases heq
      exact ⟨_, rfl⟩
    case h_3 => cases h
    case h_4 heq =>
      cases heq
      obtain ⟨inner, hinner, rfl⟩ := Option.map_eq_some_iff.1 h
      obtain ⟨rest, rfl⟩ := ih hinner
      exact ⟨rest, rfl⟩

theorem tagBody?_eq_some {cs body : List Char} (h : tagBody? cs = some body) :
    ∃ rest, cs = body ++ ']' :: rest := by
  cases cs with
  | nil => cases h
  | cons c cs =>
    unfold tagBody? at h
    dsimp only at h
    split at h
    · obtain ⟨inner, hinner, rfl⟩ := Option.map_eq_some_iff.1 h
      obtain ⟨rest, rfl⟩ := upToBracket?_eq_some hinner
      exact ⟨rest, rfl⟩
    · cases h

theorem upToBracket?_append_bracket (cs ds : List Char) :
    upToBracket? (cs ++ '[' :: ds) = upToBracket? cs := by
  fun_induction upToBracket? cs with
  | case1 => rfl
  | case2 => rfl
  | case3 => rfl
  | case4 c cs hclose hopen ih =>
    rw [List.cons_append, upToBracket?.eq_4 _ _ hclose hopen, ih]

/-- No tag reaches beyond an opening bracket. -/
theorem tagBody?_append_bracket (cs ds : List Char) :
    tagBody? (cs ++ '[' :: ds) = tagBody? cs := by
  cases cs with
  | nil => rfl
  | cons c cs => simp only [List.cons_append, tagBody?, upToBracket?_append_bracket]

/-! ## §2 What is left -/

/-- The characters of a part that is no tag. -/
def Piece.chars : Piece → List Char
  | .plain cs => cs
  | .escaped cs => cs
  | .tag _ => []

/-- The parts of a text that are no tags, one after the other. -/
def plainText (ps : List Piece) : List Char := ps.flatMap Piece.chars

@[simp] theorem plainText_nil : plainText [] = [] := rfl

@[simp] theorem plainText_cons (p : Piece) (ps : List Piece) :
    plainText (p :: ps) = p.chars ++ plainText ps := List.flatMap_cons

@[simp] theorem plainText_append (ps qs : List Piece) :
    plainText (ps ++ qs) = plainText ps ++ plainText qs := List.flatMap_append

/-- Tags that are in order leave the other parts. -/
theorem eq_plainText_of_settle? {styles : List String} {ps : List Piece} {out : List Char}
    (h : settle? styles ps = some out) : out = plainText ps := by
  fun_induction settle? styles ps generalizing out with
  | case1 => exact (Option.some.inj h).symm
  | case2 styles cs ps ih =>
    obtain ⟨rest, hrest, rfl⟩ := Option.map_eq_some_iff.1 h
    rw [ih hrest]
    rfl
  | case3 styles cs ps ih =>
    obtain ⟨rest, hrest, rfl⟩ := Option.map_eq_some_iff.1 h
    rw [ih hrest]
    rfl
  | case4 _ _ _ ih => exact ih h
  | case5 _ _ _ _ ih => exact ih h
  | case6 => cases h
  | case7 => cases h
  | case8 _ _ _ ih => exact ih h

theorem plainText_consPlain (cs : List Char) (ps : List Piece) :
    plainText (consPlain cs ps) = cs ++ plainText ps := by
  unfold consPlain
  split <;> simp [Piece.chars]

theorem plainText_joined (ps : List Piece) : plainText (joined ps) = plainText ps := by
  fun_induction joined ps with
  | case1 => rfl
  | case2 cs ps ih => rw [plainText_consPlain, ih, plainText_cons, Piece.chars]
  | case3 p ps _ ih => rw [plainText_cons, plainText_cons, ih]

theorem piecesFrom_length_append (passed cs : List Char) (slashes : Nat) :
    piecesFrom passed.length slashes (passed ++ cs) = piecesFrom 0 slashes cs := by
  induction passed with
  | nil => rfl
  | cons c passed ih => rw [List.cons_append, List.length_cons, piecesFrom, ih]

/-- A tag, and what follows it. -/
theorem piecesFrom_of_tagBody? {cs inner after : List Char} (slashes : Nat)
    (htag : tagBody? cs = some inner) (hcs : cs = inner ++ ']' :: after) :
    piecesFrom 0 slashes ('[' :: cs) = bracket slashes (some inner) ++ piecesFrom 0 0 after := by
  have hskip := piecesFrom_length_append (inner ++ [']']) after 0
  rw [List.append_assoc, List.length_append, List.singleton_append, ← hcs] at hskip
  rw [piecesFrom, if_neg (by decide), if_pos rfl, htag]
  exact congrArg _ hskip

/-! ## §3 Weights -/

/-- Backslashes count twice and opening brackets once, so that a bracket gained is never worth the
    backslash lost for it. -/
def weight (cs : List Char) : Nat := 2 * cs.count '\\' + cs.count '['

@[simp] theorem weight_nil : weight [] = 0 := rfl

@[simp] theorem weight_append (cs ds : List Char) : weight (cs ++ ds) = weight cs + weight ds := by
  simp only [weight, List.count_append]
  omega

@[simp] theorem weight_backslashes (n : Nat) : weight (backslashes n) = 2 * n := by
  simp [weight, backslashes, List.count_replicate]

theorem weight_slash (cs : List Char) : weight ('\\' :: cs) = 2 + weight cs :=
  weight_append ['\\'] cs

theorem weight_bracket (cs : List Char) : weight ('[' :: cs) = 1 + weight cs :=
  weight_append ['['] cs

theorem weight_cons {c : Char} (hslash : c ≠ '\\') (hbracket : c ≠ '[') (cs : List Char) :
    weight (c :: cs) = weight cs := by
  simp [weight, hslash, hbracket]

/-- A run of backslashes before a tag loses one at least for each two, and the tag its brackets if
    none is left over. -/
theorem weight_bracket_some_le (slashes : Nat) (body : List Char) :
    weight (plainText (bracket slashes (some body))) ≤ slashes + weight body := by
  unfold bracket
  dsimp only
  split
  · simp only [plainText_cons, plainText_nil, Piece.chars, List.append_assoc, List.append_nil,
      weight_append, weight_backslashes, List.cons_append, weight_bracket]
    rw [weight_cons (by decide) (by decide), weight_nil]
    omega
  · simp only [plainText_cons, plainText_nil, Piece.chars, List.append_nil, weight_backslashes]
    omega

theorem weight_bracket_none (slashes : Nat) :
    weight (plainText (bracket slashes none)) = 2 * (slashes - 1) + 1 := by
  simp [bracket, Piece.chars, weight_bracket]

/-- Symbols bring in neither brackets nor backslashes. -/
theorem weight_replace_le (symbols : Symbols) (cs : List Char) :
    weight (symbols.replace cs) ≤ weight cs := by
  have hslash := symbols.count_replace_le (m := '\\') (by decide) cs
  have hbracket := symbols.count_replace_le (m := '[') (by decide) cs
  unfold weight
  omega

theorem weight_plainText_withSymbols_le (symbols : Symbols) (ps : List Piece) :
    weight (plainText (ps.map (Piece.withSymbols symbols))) ≤ weight (plainText ps) := by
  induction ps with
  | nil => exact Nat.le_refl _
  | cons p ps ih =>
    rw [List.map_cons, plainText_cons, plainText_cons, weight_append, weight_append]
    apply Nat.add_le_add _ ih
    cases p with
    | plain cs => exact weight_replace_le symbols cs
    | escaped cs => exact weight_replace_le symbols cs
    | tag t => exact Nat.le_refl _

/-! ## §4 Before a last tag -/

section LastTag

variable {body : List Char} (hbody : tagBody? (body ++ [']']) = some body)
include hbody

/-- What is left before a last tag is never more than the text with the run before it, and less if
    the text has a tag or an escape, or if the run touches a bracket. -/
theorem weight_plainText (hweight : weight body = 0) (slashes : Nat) (cs : List Char) :
    weight (plainText (piecesFrom 0 slashes (cs ++ '[' :: (body ++ [']'])))) ≤
        2 * slashes + weight cs ∧
      (¬ (isVerbatim cs = true ∧ (slashes = 0 ∨ shieldsRun cs = true)) →
        weight (plainText (piecesFrom 0 slashes (cs ++ '[' :: (body ++ [']'])))) <
          2 * slashes + weight cs) := by
  cases cs with
  | nil =>
    -- only the run stands before the last tag
    have hle := weight_bracket_some_le slashes body
    rw [List.nil_append, piecesFrom_of_tagBody? slashes hbody rfl, plainText_append, weight_append]
    simp only [piecesFrom, plainText_cons, plainText_nil, Piece.chars, List.append_nil,
      weight_backslashes, weight_nil, isVerbatim, shieldsRun]
    refine ⟨by omega, fun hbad => ?_⟩
    have hrun : slashes ≠ 0 := fun h => hbad (by simp [h])
    omega
  | cons c cs =>
    have hverbatim : isVerbatim (c :: cs) = true ↔
        (c ≠ '[' ∨ tagBody? cs = none) ∧ (c ≠ '\\' ∨ shieldsRun cs = true) ∧
          isVerbatim cs = true := by
      simp [isVerbatim, and_assoc]
    have hshields : shieldsRun (c :: cs) = true ↔ c ≠ '[' := by simp [shieldsRun]
    rw [hverbatim, hshields, List.cons_append]
    by_cases hc : c = '\\'
    · -- the run goes on
      subst hc
      obtain ⟨hle, hlt⟩ := weight_plainText hweight (slashes + 1) cs
      rw [piecesFrom, if_pos rfl, weight_slash]
      refine ⟨by omega, fun hbad => ?_⟩
      have := hlt fun hgood =>
        hbad ⟨⟨.inl (by decide), .inr (by simpa using hgood.2), hgood.1⟩, .inr (by decide)⟩
      omega
    · by_cases hopen : c = '['
      · subst hopen
        rw [weight_bracket]
        cases htag : tagBody? cs with
        | none =>
          -- a bracket by itself takes the last backslash of the run away
          obtain ⟨hle, hlt⟩ := weight_plainText hweight 0 cs
          rw [piecesFrom, if_neg hc, if_pos rfl, tagBody?_append_bracket, htag]
          simp only [plainText_append, weight_append, weight_bracket_none]
          refine ⟨by omega, fun hbad => ?_⟩
          by_cases hzero : slashes = 0
          · have := hlt fun hgood =>
              hbad ⟨⟨.inr trivial, .inl (by decide), hgood.1⟩, .inl hzero⟩
            omega
          · omega
        | some inner =>
          -- a tag vanishes, or a backslash does that makes it plain
          obtain ⟨after, rfl⟩ := tagBody?_eq_some htag
          obtain ⟨hle, -⟩ := weight_plainText hweight 0 after
          have hinner := weight_bracket_some_le slashes inner
          rw [piecesFrom_of_tagBody? slashes ((tagBody?_append_bracket _ _).trans htag)
            (by rw [List.append_assoc, List.cons_append]), plainText_append, weight_append,
            weight_append, weight_cons (by decide) (by decide)]
          omega
      · obtain ⟨hle, hlt⟩ := weight_plainText hweight 0 cs
        rw [piecesFrom, if_neg hc, if_neg hopen, weight_cons hc hopen]
        simp only [plainText_cons, Piece.chars, weight_append, weight_backslashes,
          weight_cons hc hopen, weight_nil]
        refine ⟨by omega, fun hbad => ?_⟩
        have := hlt fun hgood => hbad ⟨⟨.inl hopen, .inl hc, hgood.1⟩, .inr hopen⟩
        omega
termination_by cs.length

/-- A text without tags and escapes stays in one piece before the last tag. -/
theorem joined_piecesFrom_of_isVerbatim {cs : List Char} (hcs : isVerbatim cs = true)
    {slashes : Nat} (hrun : slashes = 0 ∨ shieldsRun cs = true) :
    joined (piecesFrom 0 slashes (cs ++ '[' :: (body ++ [']']))) =
      [.plain (backslashes slashes ++ cs), .tag (.ofBody body), .plain []] := by
  induction cs generalizing slashes with
  | nil =>
    -- there is no run before the tag
    obtain rfl := hrun.resolve_right (by decide)
    rw [List.nil_append, piecesFrom_of_tagBody? 0 hbody rfl]
    rfl
  | cons c cs ih =>
    simp only [isVerbatim, Bool.and_eq_true, Bool.or_eq_true, bne_iff_ne, ne_eq] at hcs
    obtain ⟨⟨hbracket, hslash⟩, hcs⟩ := hcs
    rw [List.cons_append, piecesFrom]
    split
    case isTrue hc =>
      subst hc
      rw [ih hcs (.inr (hslash.resolve_left (by simp)))]
      simp [backslashes, List.replicate_succ']
    case isFalse hc =>
      split
      case isTrue hopen =>
        subst hopen
        obtain rfl := hrun.resolve_right (by simp [shieldsRun])
        have htag : tagBody? (cs ++ '[' :: (body ++ [']'])) = none := by
          rw [tagBody?_append_bracket]
          simpa using hbracket
        rw [htag]
        simp [bracket, joined, consPlain, ih hcs (.inl rfl), backslashes]
      case isFalse hopen =>
        simp [joined, consPlain, ih hcs (.inl rfl), backslashes]

/-- Less is left of a text with tags or escapes, if the tags are in order. -/
theorem weight_left_lt (hweight : weight body = 0) {symbols : Symbols} {styles : List String}
    {cs out : List Char} (hcs : isVerbatim cs = false)
    (hout : settle? styles ((joined (piecesFrom 0 0 (cs ++ '[' :: (body ++ [']'])))).map
      (Piece.withSymbols symbols)) = some out) : weight out < weight cs := by
  have hlt := (weight_plainText hbody hweight 0 cs).2 (by simp [hcs])
  have hsymbols := weight_plainText_withSymbols_le symbols
    (joined (piecesFrom 0 0 (cs ++ '[' :: (body ++ [']']))))
  rw [eq_plainText_of_settle? hout]
  rw [plainText_joined] at hsymbols
  omega

end LastTag

end TypeAtlas.Markup
