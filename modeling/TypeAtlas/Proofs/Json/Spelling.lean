import TypeAtlas.Json.Document

/-!
# How values are spelled

A value has many spellings: blanks may stand around every part of it, and strings and numbers may be
written in more than one way. `Spells` says which inputs spell a value, part by part; of words,
numbers and strings the notion of the reader counts. A document is read without a fault exactly if
it spells a value, and then it is the value that is read.

Main statement: `Json.spells_iff`.
-/

namespace TypeAtlas.Json

/-! ## §1 Characters and blanks -/

/-- Characters without gaps. -/
def chars (cs : List Char) : Input := cs.map some

@[simp] theorem chars_nil : chars [] = [] := rfl

@[simp] theorem chars_cons (c : Char) (cs : List Char) : chars (c :: cs) = some c :: chars cs := rfl

@[simp] theorem chars_append (cs ds : List Char) : chars (cs ++ ds) = chars cs ++ chars ds :=
  List.map_append

/-- Whether all characters may stand between the parts of a text. -/
def Blank (cs : List Char) : Prop := ∀ c ∈ cs, isSpace c = true

theorem blank_nil : Blank [] := fun _ h => absurd h List.not_mem_nil

theorem skipSpace_append {cs : List Char} (h : Blank cs) (rest : Input) :
    skipSpace (chars cs ++ rest) = skipSpace rest := by
  induction cs with
  | nil => rfl
  | cons c cs ih =>
    have hc : isSpace c = true := h c (by simp)
    simp [skipSpace, hc, ih fun d hd => h d (by simp [hd])]

theorem skipSpace_cons {c : Char} (h : isSpace c = false) (rest : Input) :
    skipSpace (some c :: rest) = some c :: rest := by
  simp [skipSpace, h]

/-- What is skipped are blanks. -/
theorem exists_blank_append_skipSpace (cs : Input) :
    ∃ b, Blank b ∧ cs = chars b ++ skipSpace cs := by
  fun_induction skipSpace cs with
  | case1 c cs hspace ih =>
    obtain ⟨b, hb, hcs⟩ := ih
    exact ⟨c :: b, List.forall_mem_cons.2 ⟨hspace, hb⟩, congrArg (some c :: ·) hcs⟩
  | case2 => exact ⟨[], blank_nil, rfl⟩
  | case3 => exact ⟨[], blank_nil, rfl⟩

theorem skipSpace_skipSpace (cs : Input) : skipSpace (skipSpace cs) = skipSpace cs := by
  obtain ⟨b, hb, hcs⟩ := exists_blank_append_skipSpace cs
  calc skipSpace (skipSpace cs) = skipSpace (chars b ++ skipSpace cs) :=
        (skipSpace_append hb _).symm
    _ = skipSpace cs := by rw [← hcs]

/-! ## §2 Spellings -/

mutual

/-- The input spells the value, without blanks around it. -/
inductive SpellsBare : Node → Input → Prop where
  | null : SpellsBare .null (chars ['n', 'u', 'l', 'l'])
  | isTrue : SpellsBare (.bool true) (chars ['t', 'r', 'u', 'e'])
  | isFalse : SpellsBare (.bool false) (chars ['f', 'a', 'l', 's', 'e'])
  | number {n : Node} {cs : Input} (h : number? cs = some (n, [])) : SpellsBare n cs
  | str {contents cs : Input} (h : stringRest? cs = some (contents, [])) :
      SpellsBare (.str (contentsText contents)) (some '"' :: cs)
  | noItems {b : List Char} (hb : Blank b) :
      SpellsBare (.arr [] true) (some '[' :: (chars b ++ [some ']']))
  | items {ns : List Node} {cs : Input} (h : SpellsItems ns cs) :
      SpellsBare (.arr ns true) (some '[' :: (cs ++ [some ']']))
  | noMembers {b : List Char} (hb : Blank b) :
      SpellsBare (.obj [] true) (some '\x7b' :: (chars b ++ [some '\x7d']))
  | members {ms : List (Option String × Node)} {cs : Input} (h : SpellsMembers ms cs) :
      SpellsBare (.obj ms true) (some '\x7b' :: (cs ++ [some '\x7d']))

/-- The input spells the value, with or without blanks around it. -/
inductive Spells : Node → Input → Prop where
  | padded {n : Node} {b b' : List Char} {cs : Input} (hb : Blank b) (h : SpellsBare n cs)
      (hb' : Blank b') : Spells n (chars b ++ (cs ++ chars b'))

/-- The input spells the values, with commas between them. -/
inductive SpellsItems : List Node → Input → Prop where
  | last {n : Node} {cs : Input} (h : Spells n cs) : SpellsItems [n] cs
  | more {n : Node} {ns : List Node} {cs rest : Input} (h : Spells n cs)
      (hrest : SpellsItems ns rest) : SpellsItems (n :: ns) (cs ++ some ',' :: rest)

/-- The input spells a key, a colon and the value. -/
inductive SpellsMember : Option String × Node → Input → Prop where
  | pair {n : Node} {b b' : List Char} {contents key cs : Input} (hb : Blank b)
      (hkey : stringRest? key = some (contents, [])) (hb' : Blank b') (h : Spells n cs) :
      SpellsMember (contentsText contents, n)
        (chars b ++ some '"' :: (key ++ (chars b' ++ some ':' :: cs)))

/-- The input spells the members, with commas between them. -/
inductive SpellsMembers : List (Option String × Node) → Input → Prop where
  | last {m : Option String × Node} {cs : Input} (h : SpellsMember m cs) : SpellsMembers [m] cs
  | more {m : Option String × Node} {ms : List (Option String × Node)} {cs rest : Input}
      (h : SpellsMember m cs) (hrest : SpellsMembers ms rest) :
      SpellsMembers (m :: ms) (cs ++ some ',' :: rest)

end

/-! ## §3 Strings -/

theorem stringRest?_cons {c : Char} (hquote : c ≠ '"') (hback : c ≠ '\\') (hc : ¬ c.toNat < 0x20)
    (rest : Input) :
    stringRest? (some c :: rest) = (stringRest? rest).map fun r => (some c :: r.1, r.2) := by
  rw [stringRest?.eq_def]
  split
  case h_6 heq =>
    cases heq
    rw [if_neg hc]
  all_goals simp_all

/-- What is read of a string does not depend on what follows it. -/
theorem exists_append_of_stringRest? {cs : Input} {r : Input × Input}
    (h : stringRest? cs = some r) :
    ∃ t, cs = t ++ r.2 ∧ ∀ rest, stringRest? (t ++ rest) = some (r.1, rest) := by
  -- one character of the contents, written in some way
  have step : ∀ {p rest : Input} {c : Option Char} {r : Input × Input},
      (∀ more, stringRest? (p ++ more) = (stringRest? more).map fun r => (c :: r.1, r.2)) →
      (∀ {r}, stringRest? rest = some r →
        ∃ t, rest = t ++ r.2 ∧ ∀ more, stringRest? (t ++ more) = some (r.1, more)) →
      (stringRest? rest).map (fun r => (c :: r.1, r.2)) = some r →
      ∃ t, p ++ rest = t ++ r.2 ∧ ∀ more, stringRest? (t ++ more) = some (r.1, more) := by
    intro p rest c r hp ih h
    obtain ⟨r', hr', rfl⟩ := Option.map_eq_some_iff.1 h
    obtain ⟨t, ht, hmore⟩ := ih hr'
    refine ⟨p ++ t, by rw [ht, List.append_assoc], fun more => ?_⟩
    rw [List.append_assoc, hp, hmore]
    rfl
  fun_induction stringRest? cs generalizing r with
  | case2 rest =>
    cases h
    exact ⟨[some '"'], rfl, fun _ => rfl⟩
  | case6 a b c d hi hunit htrail hlead e f g i rest lo hunit' htrail' ih =>
    refine step (p := [some '\\', some 'u', a, b, c, d, some '\\', some 'u', e, f, g, i]) ?_ ih h
    intro more
    simp [stringRest?, hunit, hunit', htrail, hlead, htrail']
  | case9 a b c d rest hi hunit htrail hlead ih =>
    refine step (p := [some '\\', some 'u', a, b, c, d]) ?_ ih h
    intro more
    simp [stringRest?, hunit, htrail, hlead]
  | case10 e rest hu c hshort ih =>
    have hne : e ≠ 'u' := by
      rintro rfl
      cases hshort
    refine step (p := [some '\\', some e]) ?_ ih h
    intro more
    simp [stringRest?, hshort, hne]
  | case14 c rest hquote hunit hshort hback hc ih =>
    exact step (p := [some c]) (stringRest?_cons hquote hback hc) ih h
  | case15 rest ih => exact step (p := [none]) (fun _ => rfl) ih h
  | _ => cases h

theorem stringRest?_append {cs contents : Input} (h : stringRest? cs = some (contents, []))
    (rest : Input) : stringRest? (cs ++ rest) = some (contents, rest) := by
  obtain ⟨t, rfl, hmore⟩ := exists_append_of_stringRest? h
  rw [List.append_nil]
  exact hmore rest

/-! ## §4 Numbers -/

/-- The input does not go on with a digit. -/
def NoDigit (rest : Input) : Prop := ∀ c cs, rest = some c :: cs → isDigit c = false

theorem spanDigits_append {ds : List Char} (hds : ∀ c ∈ ds, isDigit c = true) {rest : Input}
    (hrest : NoDigit rest) : spanDigits (chars ds ++ rest) = (ds, rest) := by
  induction ds with
  | nil =>
    cases rest with
    | nil => rfl
    | cons c cs =>
      cases c with
      | none => rfl
      | some c => simp [spanDigits, hrest c cs rfl]
  | cons d ds ih =>
    have hd : isDigit d = true := hds d (by simp)
    simp [spanDigits, hd, ih fun c hc => hds c (by simp [hc])]

/-- What is taken from the front are digits. -/
theorem spanDigits_eq (cs : Input) :
    cs = chars (spanDigits cs).1 ++ (spanDigits cs).2 ∧
      ∀ c ∈ (spanDigits cs).1, isDigit c = true := by
  fun_induction spanDigits cs with
  | case1 c cs hdigit r ih =>
    exact ⟨congrArg (some c :: ·) ih.1, List.forall_mem_cons.2 ⟨hdigit, ih.2⟩⟩
  | case2 => exact ⟨rfl, fun _ h => absurd h List.not_mem_nil⟩
  | case3 => exact ⟨rfl, fun _ h => absurd h List.not_mem_nil⟩

/-- What follows a value: the input goes on with a comma, a bracket, a brace or a blank, or it is at
    its end. -/
def Follows (rest : Input) : Prop :=
  ∀ c cs, rest = some c :: cs → isSpace c = true ∨ c = ',' ∨ c = ']' ∨ c = '\x7d'

theorem follows_nil : Follows [] := nofun

theorem follows_blank {c : Char} (h : isSpace c = true) (cs : Input) : Follows (some c :: cs) := by
  intro d ds hds
  cases hds
  exact .inl h

theorem follows_comma (cs : Input) : Follows (some ',' :: cs) := by
  intro d ds hds
  cases hds
  exact .inr (.inl rfl)

theorem follows_bracket (cs : Input) : Follows (some ']' :: cs) := by
  intro d ds hds
  cases hds
  exact .inr (.inr (.inl rfl))

theorem follows_brace (cs : Input) : Follows (some '\x7d' :: cs) := by
  intro d ds hds
  cases hds
  exact .inr (.inr (.inr rfl))

theorem Follows.append_blank {b : List Char} (hb : Blank b) {rest : Input} (h : Follows rest) :
    Follows (chars b ++ rest) := by
  cases b with
  | nil => exact h
  | cons c b => exact follows_blank (hb c (by simp)) _

theorem Follows.ne {rest : Input} (h : Follows rest) {c : Char} {cs : Input}
    (hcs : rest = some c :: cs) :
    isDigit c = false ∧ c ≠ '.' ∧ c ≠ 'e' ∧ c ≠ 'E' := by
  have hc : ((((c = ' ' ∨ c = '\n') ∨ c = '\r') ∨ c = '\t') ∨ c = ',' ∨ c = ']' ∨ c = '\x7d') := by
    simpa [isSpace] using h c cs hcs
  rcases hc with (((rfl | rfl) | rfl) | rfl) | rfl | rfl | rfl <;> decide

theorem Follows.noDigit {rest : Input} (h : Follows rest) : NoDigit rest :=
  fun _ _ hcs => (h.ne hcs).1

/-- A number does not go on with a fraction or an exponent behind its end. -/
theorem Follows.no_parts {rest : Input} (h : Follows rest) :
    fractionRest? rest = some (none, rest) ∧ exponentRest? rest = some (none, rest) := by
  match rest, h with
  | [], _ => exact ⟨rfl, rfl⟩
  | none :: cs, _ => exact ⟨rfl, rfl⟩
  | some c :: cs, h =>
    obtain ⟨-, hdot, he, hE⟩ := h.ne rfl
    simp [fractionRest?, exponentRest?, hdot, he, hE]

/-- The number of a sign, the digits of its whole part, and its fraction and exponent, if any. -/
def numberNode (negative : Bool) (whole : List Char) : Option (List Char) → Option Int → Node
  | none, none => .int (signed negative (digitsValue whole))
  | ds, e =>
    let ds := ds.getD []
    .decimal (signed negative (digitsValue (whole ++ ds))) (e.getD 0 - ds.length)

/-- Whether digits are the whole part of a number. -/
def isWhole (ds : List Char) : Bool := !(ds.isEmpty || (ds.head? == some '0' && ds.length != 1))

/-- A number at the front of the input, part by part. -/
theorem number?_eq_some_iff {cs rest : Input} {n : Node} :
    number? cs = some (n, rest) ↔
      isWhole (spanDigits (numberSign cs).2).1 = true ∧ ∃ fraction afterFraction exponent,
        fractionRest? (spanDigits (numberSign cs).2).2 = some (fraction, afterFraction) ∧
          exponentRest? afterFraction = some (exponent, rest) ∧
          n = numberNode (numberSign cs).1 (spanDigits (numberSign cs).2).1 fraction exponent := by
  unfold number? isWhole
  dsimp only
  generalize numberSign cs = sign
  generalize spanDigits sign.2 = whole
  constructor
  · intro h
    split at h
    · cases h
    · next hfit =>
      obtain ⟨⟨fraction, afterFraction⟩, hfraction, h⟩ := Option.bind_eq_some_iff.1 h
      obtain ⟨⟨exponent, afterExponent⟩, hexponent, h⟩ := Option.bind_eq_some_iff.1 h
      refine ⟨?_, fraction, afterFraction, exponent, hfraction, ?_⟩
      · rw [Bool.not_eq_true', Bool.eq_false_iff]
        exact hfit
      · cases fraction <;> cases exponent <;> cases h <;> exact ⟨hexponent, rfl⟩
  · rintro ⟨hfit, fraction, afterFraction, exponent, hfraction, hexponent, rfl⟩
    rw [Bool.not_eq_true'] at hfit
    rw [hfit, hfraction]
    simp only [Bool.false_eq_true, if_false, Option.bind_eq_bind, Option.bind_some, hexponent]
    cases fraction <;> cases exponent <;> rfl

/-- The input begins with a digit. -/
def DigitLed (cs : Input) : Prop := ∃ c rest, cs = some c :: rest ∧ isDigit c = true

theorem digitLed_append {ds : List Char} (hds : ∀ c ∈ ds, isDigit c = true) (hne : ds ≠ [])
    (rest : Input) : DigitLed (chars ds ++ rest) := by
  cases ds with
  | nil => exact absurd rfl hne
  | cons d ds => exact ⟨d, chars ds ++ rest, rfl, hds d (by simp)⟩

/-- No sign begins with a digit. -/
theorem DigitLed.sign {cs : Input} (h : DigitLed cs) :
    numberSign cs = (false, cs) ∧ exponentSign cs = (false, cs) := by
  obtain ⟨c, rest, rfl, hc⟩ := h
  have hsign : c ≠ '-' ∧ c ≠ '+' := by
    constructor <;> rintro rfl <;> simp [isDigit] at hc
  simp [numberSign, exponentSign, hsign]

theorem exists_append_of_numberSign (cs : Input) :
    ∃ t, cs = t ++ (numberSign cs).2 ∧ (t = [] ∨ t = [some '-']) ∧
      ∀ rest, DigitLed rest → numberSign (t ++ rest) = ((numberSign cs).1, rest) := by
  unfold numberSign
  split
  · exact ⟨[some '-'], rfl, .inr rfl, fun _ _ => rfl⟩
  · exact ⟨[], rfl, .inl rfl, fun rest hrest => hrest.sign.1⟩

theorem exists_append_of_exponentSign (cs : Input) :
    ∃ t, cs = t ++ (exponentSign cs).2 ∧
      ∀ rest, DigitLed rest → exponentSign (t ++ rest) = ((exponentSign cs).1, rest) := by
  unfold exponentSign
  split
  · exact ⟨[some '-'], rfl, fun _ _ => rfl⟩
  · exact ⟨[some '+'], rfl, fun _ _ => rfl⟩
  · exact ⟨[], rfl, fun rest hrest => hrest.sign.2⟩

/-- The input goes on with neither a digit nor a decimal point. -/
def NoFraction (rest : Input) : Prop := ∀ c cs, rest = some c :: cs → isDigit c = false ∧ c ≠ '.'

theorem NoFraction.noDigit {rest : Input} (h : NoFraction rest) : NoDigit rest :=
  fun c cs hcs => (h c cs hcs).1

theorem exists_append_of_fractionRest? {cs rest : Input} {fraction : Option (List Char)}
    (h : fractionRest? cs = some (fraction, rest)) :
    ∃ t, cs = t ++ rest ∧ ∀ more, NoFraction more →
      fractionRest? (t ++ more) = some (fraction, more) ∧ NoDigit (t ++ more) := by
  unfold fractionRest? at h
  split at h
  · next cs =>
    dsimp only at h
    split at h
    · cases h
    · next hne =>
      cases h
      obtain ⟨hcs, hdigits⟩ := spanDigits_eq cs
      refine ⟨some '.' :: chars (spanDigits cs).1, congrArg (some '.' :: ·) hcs, ?_⟩
      intro more hmore
      refine ⟨?_, ?_⟩
      · simp [fractionRest?, spanDigits_append hdigits hmore.noDigit, hne]
      · intro c cs' hcs'
        cases hcs'
        rfl
  · cases h
    refine ⟨[], rfl, fun more hmore => ⟨?_, hmore.noDigit⟩⟩
    match more, hmore with
    | [], _ => rfl
    | none :: _, _ => rfl
    | some c :: more, hmore => simp [fractionRest?, (hmore c more rfl).2]

theorem exists_append_of_exponentRest? {cs rest : Input} {exponent : Option Int}
    (h : exponentRest? cs = some (exponent, rest)) :
    ∃ t, cs = t ++ rest ∧ ∀ more, Follows more →
      exponentRest? (t ++ more) = some (exponent, more) ∧ NoFraction (t ++ more) := by
  have hnone : ∀ more, Follows more →
      exponentRest? ([] ++ more) = some (none, more) ∧ NoFraction ([] ++ more) :=
    fun more hmore => ⟨hmore.no_parts.2, fun c cs hcs => ⟨(hmore.ne hcs).1, (hmore.ne hcs).2.1⟩⟩
  unfold exponentRest? at h
  split at h
  · next c cs =>
    split at h
    · next hc =>
      dsimp only at h
      split at h
      · cases h
      · next hne =>
        cases h
        obtain ⟨t, ht, hsign⟩ := exists_append_of_exponentSign cs
        obtain ⟨hcs, hdigits⟩ := spanDigits_eq (exponentSign cs).2
        refine ⟨some c :: (t ++ chars (spanDigits (exponentSign cs).2).1), ?_, fun more hmore => ?_⟩
        · rw [List.cons_append, List.append_assoc, ← hcs, ← ht]
        have hled := digitLed_append hdigits (by simpa using hne) more
        refine ⟨?_, ?_⟩
        · simp only [exponentRest?, List.cons_append, List.append_assoc, hc, if_true, hsign _ hled,
            spanDigits_append hdigits hmore.noDigit]
          rw [if_neg hne]
        · intro d ds hds
          cases hds
          have hletter : c = 'e' ∨ c = 'E' := by simpa using hc
          rcases hletter with rfl | rfl <;> decide
    · cases h
      exact ⟨[], rfl, hnone⟩
  · cases h
    exact ⟨[], rfl, hnone⟩

/-- What is read of a number does not depend on what follows it. -/
theorem exists_append_of_number? {cs rest : Input} {n : Node} (h : number? cs = some (n, rest)) :
    ∃ t, cs = t ++ rest ∧ (∃ c ds, t = some c :: ds ∧ (isDigit c = true ∨ c = '-')) ∧
      ∀ more, Follows more → number? (t ++ more) = some (n, more) := by
  obtain ⟨hwhole, fraction, afterFraction, exponent, hfraction, hexponent, rfl⟩ :=
    number?_eq_some_iff.1 h
  obtain ⟨sign, hcs, hsign, hsignMore⟩ := exists_append_of_numberSign cs
  obtain ⟨hdigits, hisDigit⟩ := spanDigits_eq (numberSign cs).2
  obtain ⟨point, hpoint, hpointMore⟩ := exists_append_of_fractionRest? hfraction
  obtain ⟨power, hpower, hpowerMore⟩ := exists_append_of_exponentRest? hexponent
  generalize numberSign cs = s at *
  generalize spanDigits s.2 = ds at *
  -- each part is read from its own text: what follows begins with no character that continues it
  have hne : ds.1 ≠ [] := by
    intro hnil
    rw [hnil] at hwhole
    cases hwhole
  refine ⟨sign ++ (chars ds.1 ++ (point ++ power)), ?_, ?_, fun more hmore => ?_⟩
  · rw [hcs, hdigits, hpoint, hpower]
    simp only [List.append_assoc]
  · rcases hsign with rfl | rfl
    · obtain ⟨c, rest', hled, hc⟩ := digitLed_append hisDigit hne (point ++ power)
      exact ⟨c, rest', hled, .inl hc⟩
    · exact ⟨'-', _, rfl, .inr rfl⟩
  · obtain ⟨hpower', hpowerLed⟩ := hpowerMore more hmore
    obtain ⟨hpoint', hpointLed⟩ := hpointMore _ hpowerLed
    have hsign' := hsignMore _ (digitLed_append hisDigit hne (point ++ (power ++ more)))
    have hwhole' := spanDigits_append hisDigit hpointLed
    simp only [List.append_assoc]
    rw [number?_eq_some_iff, hsign']
    dsimp only
    rw [hwhole']
    exact ⟨hwhole, fraction, power ++ more, exponent, hpoint', hpower', rfl⟩

/-! ## §5 Values without parts -/

/-- A text that begins as a number is read as one. -/
theorem scalar_of_number {c : Char} (hc : isDigit c = true ∨ c = '-') {cs rest : Input} {v : Node}
    (h : number? (some c :: cs) = some (v, rest)) : scalar (some c :: cs) = (v, some rest) := by
  rw [scalar.eq_def]
  split
  case h_5 => rw [h]
  -- no number begins with a quotation mark or a letter
  all_goals
    rename_i heq
    cases heq
    simp [isDigit] at hc

theorem ne_of_number {c : Char} (hc : isDigit c = true ∨ c = '-') :
    isSpace c = false ∧ c ≠ ']' ∧ c ≠ '[' ∧ c ≠ '\x7b' := by
  have hspace : isSpace c = false := by
    rw [← Bool.not_eq_true]
    intro h
    have hblank : ((c = ' ' ∨ c = '\n') ∨ c = '\r') ∨ c = '\t' := by simpa [isSpace] using h
    rcases hblank with ((rfl | rfl) | rfl) | rfl <;> simp [isDigit] at hc
  refine ⟨hspace, ?_, ?_, ?_⟩ <;> rintro rfl <;> simp [isDigit] at hc

/-- A value that begins with neither bracket nor brace has no parts. -/
theorem value_eq_scalar (fuel : Nat) {c : Char} (hspace : isSpace c = false) (hbracket : c ≠ '[')
    (hbrace : c ≠ '\x7b') (cs : Input) :
    value (fuel + 1) (some c :: cs) = scalar (some c :: cs) := by
  simp [value, skipSpace_cons hspace, hbracket, hbrace]

theorem eq_append_of_word? {ws : List Char} {cs rest : Input} (h : word? ws cs = some rest) :
    cs = chars ws ++ rest := by
  fun_induction word? ws cs with
  | case1 cs =>
    cases h
    rfl
  | case2 ws c cs ih => exact congrArg (some c :: ·) (ih h)
  | case3 => cases h
  | case4 => cases h

/-- A value without parts is spelled by what has been read. -/
theorem exists_append_of_scalar {cs rest : Input} {n : Node} (h : scalar cs = (n, some rest)) :
    ∃ t, cs = t ++ rest ∧ SpellsBare n t := by
  unfold scalar at h
  split at h
  case h_1 cs =>
    split at h
    case h_1 r hr =>
      cases h
      obtain ⟨t, ht, hmore⟩ := exists_append_of_stringRest? hr
      have htoken := hmore []
      rw [List.append_nil] at htoken
      exact ⟨some '"' :: t, congrArg (some '"' :: ·) ht, .str htoken⟩
    case h_2 => cases h
  case h_5 =>
    split at h
    case h_1 r hr =>
      cases h
      obtain ⟨t, ht, -, hmore⟩ := exists_append_of_number? hr
      have htoken := hmore [] follows_nil
      rw [List.append_nil] at htoken
      exact ⟨t, ht, .number htoken⟩
    case h_2 => cases h
  -- the three words
  case h_2 cs =>
    split at h <;> cases h
    next hr => exact ⟨_, congrArg (some 'n' :: ·) (eq_append_of_word? hr), .null⟩
  case h_3 cs =>
    split at h <;> cases h
    next hr => exact ⟨_, congrArg (some 't' :: ·) (eq_append_of_word? hr), .isTrue⟩
  case h_4 cs =>
    split at h <;> cases h
    next hr => exact ⟨_, congrArg (some 'f' :: ·) (eq_append_of_word? hr), .isFalse⟩

/-! ## §6 Arrays and objects -/

section

variable {fuel : Nat} {cs : Input}

theorem value_skipSpace (fuel : Nat) (cs : Input) : value fuel (skipSpace cs) = value fuel cs := by
  cases fuel with
  | zero => simp [value]
  | succ fuel => rw [value, value, skipSpace_skipSpace]

theorem items_skipSpace (fuel : Nat) (cs : Input) : items fuel (skipSpace cs) = items fuel cs := by
  cases fuel with
  | zero => simp [items]
  | succ fuel => rw [items, items, value_skipSpace]

theorem members_skipSpace (fuel : Nat) (cs : Input) :
    members fuel (skipSpace cs) = members fuel cs := by
  cases fuel with
  | zero => simp [members]
  | succ fuel => rw [members, members, skipSpace_skipSpace]

theorem value_noItems {b : List Char} (hb : Blank b) (rest : Input) :
    value (fuel + 1) (some '[' :: (chars b ++ some ']' :: rest)) = (.arr [] true, some rest) := by
  simp [value, skipSpace_cons (show isSpace '[' = false from rfl), skipSpace_append hb,
    skipSpace_cons (show isSpace ']' = false from rfl)]

theorem value_noMembers {b : List Char} (hb : Blank b) (rest : Input) :
    value (fuel + 1) (some '\x7b' :: (chars b ++ some '\x7d' :: rest)) =
      (.obj [] true, some rest) := by
  simp [value, skipSpace_cons (show isSpace '\x7b' = false from rfl), skipSpace_append hb,
    skipSpace_cons (show isSpace '\x7d' = false from rfl)]

/-- An array whose text does not go on with its end. -/
theorem value_bracket (h : ∀ rest, skipSpace cs ≠ some ']' :: rest) :
    value (fuel + 1) (some '[' :: cs) =
      (.arr (items fuel cs).1 (items fuel cs).2.isSome, (items fuel cs).2) := by
  simp [value, skipSpace_cons (show isSpace '[' = false from rfl), items_skipSpace]

/-- An object whose text does not go on with its end. -/
theorem value_brace (h : ∀ rest, skipSpace cs ≠ some '\x7d' :: rest) :
    value (fuel + 1) (some '\x7b' :: cs) =
      (.obj (members fuel cs).1 (members fuel cs).2.isSome, (members fuel cs).2) := by
  simp [value, skipSpace_cons (show isSpace '\x7b' = false from rfl), members_skipSpace]

end

/-! ## §7 What is spelled is read -/

/-- No value begins with a blank or with the end of an array. -/
theorem SpellsBare.exists_cons {n : Node} {cs : Input} (h : SpellsBare n cs) :
    ∃ c rest, cs = some c :: rest ∧ isSpace c = false ∧ c ≠ ']' := by
  cases h with
  | number h =>
    obtain ⟨t, rfl, ⟨c, ds, rfl, hc⟩, -⟩ := exists_append_of_number? h
    exact ⟨c, ds ++ [], rfl, (ne_of_number hc).1, (ne_of_number hc).2.1⟩
  | _ => exact ⟨_, _, rfl, by decide, by decide⟩

theorem SpellsItems.skipSpace_ne {ns : List Node} {cs : Input} (h : SpellsItems ns cs)
    (more rest : Input) : skipSpace (cs ++ more) ≠ some ']' :: rest := by
  have hvalue : ∀ {n cs}, Spells n cs → ∀ more, skipSpace (cs ++ more) ≠ some ']' :: rest := by
    rintro n _ ⟨hb, hbare, -⟩ more
    obtain ⟨c, cs, rfl, hspace, hclose⟩ := hbare.exists_cons
    rw [List.append_assoc, List.append_assoc, skipSpace_append hb, List.cons_append,
      skipSpace_cons hspace]
    intro hcs
    cases hcs
    exact hclose rfl
  cases h with
  | last h => exact hvalue h more
  | more h _ =>
    rw [List.append_assoc]
    exact hvalue h _

theorem SpellsMembers.skipSpace_ne {ms : List (Option String × Node)} {cs : Input}
    (h : SpellsMembers ms cs) (more rest : Input) :
    skipSpace (cs ++ more) ≠ some '\x7d' :: rest := by
  have hmember : ∀ {m cs}, SpellsMember m cs → ∀ more,
      skipSpace (cs ++ more) ≠ some '\x7d' :: rest := by
    rintro m _ ⟨hb, -, -, -⟩ more
    rw [List.append_assoc, skipSpace_append hb, List.cons_append, skipSpace_cons (by decide)]
    exact nofun
  cases h with
  | last h => exact hmember h more
  | more h _ =>
    rw [List.append_assoc]
    exact hmember h _

/-- With so many calls at most, what is spelled is read. A part takes two calls, one for the value
    and one for the place in its list, and has a character of its own at least. -/
structure ReadsSpelled (fuel : Nat) : Prop where
  value : ∀ {n cs rest}, Spells n cs → Follows rest → 2 * cs.length ≤ fuel →
    ∃ after, value fuel (cs ++ rest) = (n, some after) ∧ skipSpace after = skipSpace rest
  items : ∀ {ns cs rest}, SpellsItems ns cs → 2 * cs.length + 1 ≤ fuel →
    items fuel (cs ++ some ']' :: rest) = (ns, some rest)
  members : ∀ {ms cs rest}, SpellsMembers ms cs → 2 * cs.length + 1 ≤ fuel →
    members fuel (cs ++ some '\x7d' :: rest) = (ms, some rest)

theorem value_of_spellsBare {fuel : Nat} (ih : ReadsSpelled fuel) {n : Node} {cs rest : Input}
    (h : SpellsBare n cs) (hrest : Follows rest) (hfuel : 2 * cs.length ≤ fuel + 1) :
    value (fuel + 1) (cs ++ rest) = (n, some rest) := by
  cases h with
  | null => exact value_eq_scalar fuel (by decide) (by decide) (by decide) _
  | isTrue => exact value_eq_scalar fuel (by decide) (by decide) (by decide) _
  | isFalse => exact value_eq_scalar fuel (by decide) (by decide) (by decide) _
  | number h =>
    obtain ⟨t, rfl, ⟨c, ds, rfl, hc⟩, hmore⟩ := exists_append_of_number? h
    obtain ⟨hspace, -, hbracket, hbrace⟩ := ne_of_number hc
    have hnumber := hmore rest hrest
    rw [List.append_nil, List.cons_append] at *
    rw [value_eq_scalar fuel hspace hbracket hbrace, scalar_of_number hc hnumber]
  | str h =>
    rw [List.cons_append, value_eq_scalar fuel (by decide) (by decide) (by decide), scalar,
      stringRest?_append h]
  | noItems hb =>
    rw [List.cons_append, List.append_assoc]
    exact value_noItems hb rest
  | items h =>
    simp only [List.length_cons, List.length_append] at hfuel
    rw [List.cons_append, List.append_assoc, value_bracket (h.skipSpace_ne _), List.cons_append,
      List.nil_append, ih.items h (by omega)]
    rfl
  | noMembers hb =>
    rw [List.cons_append, List.append_assoc]
    exact value_noMembers hb rest
  | members h =>
    simp only [List.length_cons, List.length_append] at hfuel
    rw [List.cons_append, List.append_assoc, value_brace (h.skipSpace_ne _), List.cons_append,
      List.nil_append, ih.members h (by omega)]
    rfl

theorem length_chars (cs : List Char) : (chars cs).length = cs.length := List.length_map _

theorem value_of_spells {fuel : Nat} (ih : ReadsSpelled fuel) {n : Node} {cs rest : Input}
    (h : Spells n cs) (hrest : Follows rest) (hfuel : 2 * cs.length ≤ fuel + 1) :
    ∃ after, value (fuel + 1) (cs ++ rest) = (n, some after) ∧
      skipSpace after = skipSpace rest := by
  obtain ⟨hb, hbare, hb'⟩ := h
  rename_i b b' cs
  simp only [List.length_append, length_chars] at hfuel
  refine ⟨chars b' ++ rest, ?_, skipSpace_append hb' rest⟩
  rw [List.append_assoc, List.append_assoc, ← value_skipSpace, skipSpace_append hb,
    value_skipSpace]
  exact value_of_spellsBare ih hbare (hrest.append_blank hb') (by omega)

theorem items_of_spells {fuel : Nat} (ih : ReadsSpelled fuel) {ns : List Node} {cs rest : Input}
    (h : SpellsItems ns cs) (hfuel : 2 * cs.length + 1 ≤ fuel + 1) :
    items (fuel + 1) (cs ++ some ']' :: rest) = (ns, some rest) := by
  cases h with
  | last h =>
    obtain ⟨after, hvalue, hafter⟩ := ih.value h (follows_bracket rest) (by omega)
    rw [skipSpace_cons (by decide)] at hafter
    simp [items, hvalue, hafter]
  | @more n ns cs more h hmore =>
    simp only [List.length_append, List.length_cons] at hfuel
    obtain ⟨after, hvalue, hafter⟩ :=
      ih.value h (follows_comma (more ++ some ']' :: rest)) (by omega)
    rw [skipSpace_cons (by decide)] at hafter
    rw [List.append_assoc, List.cons_append]
    simp [items, hvalue, hafter, ih.items hmore (by omega)]

/-- A member in front of the end of the object, or of a comma. -/
theorem members_of_spellsMember {fuel : Nat} (ih : ReadsSpelled fuel)
    {m : Option String × Node} {cs : Input} (h : SpellsMember m cs)
    (hfuel : 2 * cs.length ≤ fuel) (rest : Input) :
    members (fuel + 1) (cs ++ some '\x7d' :: rest) = ([m], some rest) ∧
      members (fuel + 1) (cs ++ some ',' :: rest) =
        (m :: (members fuel rest).1, (members fuel rest).2) := by
  obtain ⟨hb, hkey, hb', hn⟩ := h
  rename_i n b b' contents key cs
  simp only [List.length_append, List.length_cons, length_chars] at hfuel
  have hcolon : isSpace ':' = false := rfl
  have hquote : isSpace '"' = false := rfl
  constructor
  · obtain ⟨after, hvalue, hafter⟩ := ih.value hn (follows_brace rest) (by omega)
    rw [skipSpace_cons (by decide)] at hafter
    simp [members, skipSpace_append hb, skipSpace_cons hquote, stringRest?_append hkey,
      skipSpace_append hb', skipSpace_cons hcolon, hvalue, hafter]
  · obtain ⟨after, hvalue, hafter⟩ := ih.value hn (follows_comma rest) (by omega)
    rw [skipSpace_cons (by decide)] at hafter
    simp [members, skipSpace_append hb, skipSpace_cons hquote, stringRest?_append hkey,
      skipSpace_append hb', skipSpace_cons hcolon, hvalue, hafter]

theorem members_of_spells {fuel : Nat} (ih : ReadsSpelled fuel)
    {ms : List (Option String × Node)} {cs rest : Input} (h : SpellsMembers ms cs)
    (hfuel : 2 * cs.length + 1 ≤ fuel + 1) :
    members (fuel + 1) (cs ++ some '\x7d' :: rest) = (ms, some rest) := by
  cases h with
  | last h => exact (members_of_spellsMember ih h (by omega) rest).1
  | more h hrest =>
    simp only [List.length_append, List.length_cons] at hfuel
    rw [List.append_assoc, List.cons_append,
      (members_of_spellsMember ih h (by omega) _).2, ih.members hrest (by omega)]

theorem readsSpelled (fuel : Nat) : ReadsSpelled fuel := by
  induction fuel with
  | zero =>
    -- without a call nothing is read, but nothing that is spelled is empty
    refine ⟨?_, fun _ hfuel => by omega, fun _ hfuel => by omega⟩
    rintro n _ rest ⟨-, hbare, -⟩ - hfuel
    obtain ⟨c, cs, rfl, -⟩ := hbare.exists_cons
    simp at hfuel
  | succ fuel ih =>
    exact ⟨value_of_spells ih, items_of_spells ih, members_of_spells ih⟩

/-! ## §8 What is read is spelled -/

theorem Blank.append {b b' : List Char} (hb : Blank b) (hb' : Blank b') : Blank (b ++ b') :=
  List.forall_mem_append.2 ⟨hb, hb'⟩

/-- More blanks in front of a value make no difference. -/
theorem Spells.blank_append {n : Node} {cs : Input} (h : Spells n cs) {b : List Char}
    (hb : Blank b) : Spells n (chars b ++ cs) := by
  obtain ⟨hb₁, hbare, hb₂⟩ := h
  rw [← List.append_assoc, ← chars_append]
  exact .padded (hb.append hb₁) hbare hb₂

theorem SpellsItems.blank_append {ns : List Node} {cs : Input} (h : SpellsItems ns cs)
    {b : List Char} (hb : Blank b) : SpellsItems ns (chars b ++ cs) := by
  cases h with
  | last h => exact .last (h.blank_append hb)
  | more h hmore =>
    rw [← List.append_assoc]
    exact .more (h.blank_append hb) hmore

theorem SpellsMembers.blank_append {ms : List (Option String × Node)} {cs : Input}
    (h : SpellsMembers ms cs) {b : List Char} (hb : Blank b) :
    SpellsMembers ms (chars b ++ cs) := by
  have hmember : ∀ {m cs}, SpellsMember m cs → SpellsMember m (chars b ++ cs) := by
    rintro m _ ⟨hb₁, hkey, hb₂, hn⟩
    rw [← List.append_assoc, ← chars_append]
    exact .pair (hb.append hb₁) hkey hb₂ hn
  cases h with
  | last h => exact .last (hmember h)
  | more h hmore =>
    rw [← List.append_assoc]
    exact .more (hmember h) hmore

/-- With so many calls at most, what is read is spelled. -/
structure SpellsRead (fuel : Nat) : Prop where
  value : ∀ {n cs rest}, value fuel cs = (n, some rest) →
    ∃ b t, Blank b ∧ SpellsBare n t ∧ cs = chars b ++ (t ++ rest)
  items : ∀ {ns cs rest}, items fuel cs = (ns, some rest) →
    ∃ t, SpellsItems ns t ∧ cs = t ++ some ']' :: rest
  members : ∀ {ms cs rest}, members fuel cs = (ms, some rest) →
    ∃ t, SpellsMembers ms t ∧ cs = t ++ some '\x7d' :: rest

theorem exists_spellsBare_of_value {fuel : Nat} (ih : SpellsRead fuel) {n : Node} {cs rest : Input}
    (h : value (fuel + 1) cs = (n, some rest)) :
    ∃ b t, Blank b ∧ SpellsBare n t ∧ cs = chars b ++ (t ++ rest) := by
  obtain ⟨b, hb, hcs⟩ := exists_blank_append_skipSpace cs
  unfold value at h
  split at h
  case h_1 inner hskip =>
    obtain ⟨b', hb', hinner⟩ := exists_blank_append_skipSpace inner
    split at h
    case h_1 after hclose =>
      cases h
      refine ⟨b, _, hb, .noItems hb', ?_⟩
      rw [hcs, hskip, hinner, hclose]
      simp
    case h_2 =>
      obtain ⟨hn, hsome⟩ := Prod.mk.inj h
      -- the blanks behind the bracket are those in front of the first item
      obtain ⟨t, ht, hitems⟩ := ih.items (Prod.ext rfl hsome)
      rw [hsome] at hn
      subst hn
      refine ⟨b, _, hb, .items (ht.blank_append hb'), ?_⟩
      rw [hcs, hskip, hinner, hitems]
      simp
  case h_2 inner hskip =>
    obtain ⟨b', hb', hinner⟩ := exists_blank_append_skipSpace inner
    split at h
    case h_1 after hclose =>
      cases h
      refine ⟨b, _, hb, .noMembers hb', ?_⟩
      rw [hcs, hskip, hinner, hclose]
      simp
    case h_2 =>
      obtain ⟨hn, hsome⟩ := Prod.mk.inj h
      obtain ⟨t, ht, hmembers⟩ := ih.members (Prod.ext rfl hsome)
      rw [hsome] at hn
      subst hn
      refine ⟨b, _, hb, .members (ht.blank_append hb'), ?_⟩
      rw [hcs, hskip, hinner, hmembers]
      simp
  case h_3 =>
    obtain ⟨t, ht, hbare⟩ := exists_append_of_scalar h
    exact ⟨b, t, hb, hbare, by rw [hcs, ht]⟩

/-- A value that has been read, with the blanks behind it. -/
theorem exists_spells_of_value {fuel : Nat} (ih : SpellsRead fuel) {n : Node} {cs after : Input}
    (h : value fuel cs = (n, some after)) : ∃ t, Spells n t ∧ cs = t ++ skipSpace after := by
  obtain ⟨b, t, hb, hbare, rfl⟩ := ih.value h
  obtain ⟨b', hb', hafter⟩ := exists_blank_append_skipSpace after
  refine ⟨_, .padded hb hbare hb', ?_⟩
  rw [List.append_assoc, List.append_assoc, ← hafter]

theorem exists_spellsItems_of_items {fuel : Nat} (ih : SpellsRead fuel) {ns : List Node}
    {cs rest : Input} (h : items (fuel + 1) cs = (ns, some rest)) :
    ∃ t, SpellsItems ns t ∧ cs = t ++ some ']' :: rest := by
  unfold items at h
  dsimp only at h
  split at h
  case h_1 => cases h
  case h_2 after hvalue =>
    obtain ⟨t, ht, hcs⟩ := exists_spells_of_value ih (Prod.ext rfl hvalue)
    -- behind the item stands the end of the array, a comma, or a fault
    split at h
    case h_1 hskip =>
      cases h
      exact ⟨t, .last ht, by rw [hcs, hskip]⟩
    case h_2 more hskip =>
      obtain ⟨hns, hsome⟩ := Prod.mk.inj h
      obtain ⟨t', ht', hmore⟩ := ih.items (Prod.ext rfl hsome)
      subst hns
      refine ⟨_, .more ht ht', ?_⟩
      rw [hcs, hskip, hmore]
      simp
    case h_3 => cases h

theorem exists_spellsMembers_of_members {fuel : Nat} (ih : SpellsRead fuel)
    {ms : List (Option String × Node)} {cs rest : Input}
    (h : members (fuel + 1) cs = (ms, some rest)) :
    ∃ t, SpellsMembers ms t ∧ cs = t ++ some '\x7d' :: rest := by
  obtain ⟨b, hb, hcs⟩ := exists_blank_append_skipSpace cs
  unfold members at h
  split at h
  case h_2 => cases h
  case h_1 inner hquote =>
    split at h
    case h_1 => cases h
    case h_2 k hk =>
      obtain ⟨key, hinner, htoken⟩ := exists_append_of_stringRest? hk
      have htoken := htoken []
      rw [List.append_nil] at htoken
      obtain ⟨b', hb', hbehind⟩ := exists_blank_append_skipSpace k.2
      split at h
      case h_2 => cases h
      case h_1 inner' hcolon =>
        dsimp only at h
        split at h
        case h_1 => cases h
        case h_2 after hvalue =>
          obtain ⟨t, ht, hinner'⟩ := exists_spells_of_value ih (Prod.ext rfl hvalue)
          have hmember := SpellsMember.pair hb htoken hb' ht
          -- behind the member stands the end of the object, a comma, or a fault
          split at h
          case h_1 hskip =>
            cases h
            refine ⟨_, .last hmember, ?_⟩
            rw [hcs, hquote, hinner, hbehind, hcolon, hinner', hskip]
            simp
          case h_2 more hskip =>
            obtain ⟨hms, hsome⟩ := Prod.mk.inj h
            obtain ⟨t', ht', hmore⟩ := ih.members (Prod.ext rfl hsome)
            subst hms
            refine ⟨_, .more hmember ht', ?_⟩
            rw [hcs, hquote, hinner, hbehind, hcolon, hinner', hskip, hmore]
            simp
          case h_3 => cases h

theorem spellsRead (fuel : Nat) : SpellsRead fuel := by
  induction fuel with
  | zero =>
    refine ⟨fun h => ?_, fun h => ?_, fun h => ?_⟩
    · rw [value] at h
      cases h
    · rw [items] at h
      cases h
    · rw [members] at h
      cases h
  | succ fuel ih =>
    exact ⟨exists_spellsBare_of_value ih, exists_spellsItems_of_items ih,
      exists_spellsMembers_of_members ih⟩

/-! ## §9 Documents -/

/-- The spellings of a value are the documents without a fault that it is read from. -/
theorem spells_iff {n : Node} {cs : Input} :
    Spells n cs ↔ Document.ofInput cs = ⟨n, true⟩ := by
  unfold Document.ofInput
  dsimp only
  constructor
  · intro h
    obtain ⟨after, hvalue, hafter⟩ :=
      (readsSpelled (2 * cs.length + 2)).value h follows_nil (by omega)
    rw [List.append_nil] at hvalue
    rw [hvalue]
    dsimp only
    rw [Option.any_some, hafter]
    rfl
  · intro h
    obtain ⟨hn, hended⟩ := Document.mk.inj h
    obtain ⟨after, hafter, hempty⟩ := (Option.any_eq_true _ _).1 hended
    obtain ⟨t, ht, hcs⟩ := exists_spells_of_value (spellsRead _) (Prod.ext hn hafter)
    rw [List.isEmpty_iff.1 hempty, List.append_nil] at hcs
    exact hcs ▸ ht

theorem Spells.unique {n n' : Node} {cs : Input} (h : Spells n cs) (h' : Spells n' cs) : n = n' :=
  (Document.mk.inj ((spells_iff.1 h).symm.trans (spells_iff.1 h'))).1

end TypeAtlas.Json
