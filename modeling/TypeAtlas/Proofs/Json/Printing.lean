import TypeAtlas.Json.Printer
import TypeAtlas.Proofs.Json.Spelling

/-!
# Printed values are read back

A printed value spells the tree of the value, so read as a document it gives that tree, whatever
blanks stand around it. Strings and numbers come first; the nested parts are one induction over the
value.

Main statement: `Json.ofInput_print`.
-/

namespace TypeAtlas.Json

/-! ## §1 The tree of a value -/

mutual

/-- The tree of a value. -/
def toNode : Json → Node
  | .null => .null
  | .bool b => .bool b
  | .int n => .int n
  | .decimal m e => .decimal m e
  | .str s => .str (some s)
  | .arr vs => .arr (toNodes vs) true
  | .obj ms => .obj (toMembers ms) true

/-- The trees of the items of an array. -/
def toNodes : List Json → List Node
  | [] => []
  | v :: vs => v.toNode :: toNodes vs

/-- The trees of the members of an object. -/
def toMembers : List (String × Json) → List (Option String × Node)
  | [] => []
  | (k, v) :: ms => (some k, v.toNode) :: toMembers ms

end

/-! ## §2 Strings -/

theorem hexValue?_hexDigit : ∀ n < 16, hexValue? (hexDigit n) = some n := by decide

/-- Four digits of which the first two are zeros write a code unit below 256. -/
theorem codeUnit?_hexDigit {n : Nat} (h : n < 256) :
    codeUnit? (some '0') (some '0') (some (hexDigit (n / 16))) (some (hexDigit (n % 16))) =
      some n := by
  have hzero : hexValue? '0' = some 0 := by decide
  have hhigh := hexValue?_hexDigit (n / 16) (by omega)
  have hlow := hexValue?_hexDigit (n % 16) (by omega)
  simp only [codeUnit?, hzero, hhigh, hlow, Option.bind_eq_bind, Option.bind_some, Option.pure_def]
  congr 1
  omega

/-- The written form of a character is read back as that character. -/
theorem stringRest?_escapeChar (c : Char) (rest : Input) :
    stringRest? (chars (escapeChar c) ++ rest) =
      (stringRest? rest).map fun r => (some c :: r.1, r.2) := by
  unfold escapeChar
  split
  case h_8 _ hquote hback _ _ _ _ _ =>
    by_cases hc : c.toNat < 0x20
    · -- a control is written by its code point
      have htrailing : isTrailing c.toNat = false := by simp [isTrailing]; omega
      have hleading : isLeading c.toNat = false := by simp [isLeading]; omega
      simp [hc, stringRest?, codeUnit?_hexDigit (n := c.toNat) (by omega), htrailing, hleading,
        Char.ofNat_toNat]
    · rw [if_neg hc]
      exact stringRest?_cons hquote hback hc rest
  all_goals simp [stringRest?, shortEscape?]

theorem stringRest?_flatMap (cs : List Char) (rest : Input) :
    stringRest? (chars (cs.flatMap escapeChar) ++ some '"' :: rest) = some (chars cs, rest) := by
  induction cs with
  | nil => simp [stringRest?]
  | cons c cs ih =>
    rw [List.flatMap_cons, chars_append, List.append_assoc, stringRest?_escapeChar, ih]
    rfl

@[simp] theorem contentsText_chars (s : String) : contentsText (chars s.toList) = some s := by
  simp [contentsText, chars]

/-! ## §3 Numbers -/

theorem isDigit_of_mem_toDigits {n : Nat} {c : Char} (h : c ∈ Nat.toDigits 10 n) :
    isDigit c = true := by
  have hc : c.isDigit = true := Nat.isDigit_of_mem_toDigits (by decide) (by decide) h
  simpa [isDigit, Char.isDigit, Char.le_def] using hc

theorem digitsValue_toDigits (n : Nat) : digitsValue (Nat.toDigits 10 n) = n := by
  have hvalue := Nat.ofDigitChars_ten_toDigits (n := n)
  rw [Nat.ofDigitChars_eq_foldl] at hvalue
  simpa [digitsValue, Nat.mul_comm] using hvalue

/-- Only zero begins with a zero. -/
theorem head?_toDigits {n : Nat} (h : n ≠ 0) : (Nat.toDigits 10 n).head? ≠ some '0' := by
  induction n using Nat.strongRecOn with
  | ind n ih =>
    by_cases hn : n < 10
    · have hdigit : ∀ d < 10, d ≠ 0 → d.digitChar ≠ '0' := by decide
      simpa [Nat.toDigits_of_lt_base hn] using hdigit n hn h
    · have hfirst : Nat.toDigits 10 n = Nat.toDigits 10 (n / 10) ++ [(n % 10).digitChar] :=
        Nat.toDigits_of_base_le (by decide) (by omega)
      have hlater := ih (n / 10) (by omega) (by omega)
      cases hdigits : Nat.toDigits 10 (n / 10) with
      | nil => exact absurd hdigits Nat.toDigits_ne_nil
      | cons d ds =>
        rw [hdigits] at hfirst hlater
        rw [hfirst]
        exact hlater

theorem toList_repr (n : Int) :
    n.repr.toList = (if n < 0 then ['-'] else []) ++ Nat.toDigits 10 n.natAbs := by
  rw [Int.repr_eq_if]
  by_cases hn : n < 0
  · have habs : (-n).toNat = n.natAbs := by omega
    simp [hn, Int.not_le.2 hn, habs, Nat.toList_repr]
  · have habs : n.toNat = n.natAbs := by omega
    simp [hn, Int.not_lt.1 hn, habs, Nat.toList_repr]

theorem signed_natAbs (n : Int) : signed (decide (n < 0)) n.natAbs = n := by
  unfold signed
  by_cases hn : n < 0
  · rw [decide_eq_true hn, if_pos rfl]
    omega
  · rw [decide_eq_false hn, if_neg nofun]
    omega

/-- Digits at the front of the input are no sign. -/
theorem exists_chars_toDigits (n : Nat) (rest : Input) :
    ∃ c cs, chars (Nat.toDigits 10 n) ++ rest = some c :: cs ∧ isDigit c = true := by
  cases hdigits : Nat.toDigits 10 n with
  | nil => exact absurd hdigits Nat.toDigits_ne_nil
  | cons d ds =>
    have hd : d ∈ Nat.toDigits 10 n := by simp [hdigits]
    exact ⟨d, chars ds ++ rest, rfl, isDigit_of_mem_toDigits hd⟩

/-- The sign of a written number is told from its digits, be it that of a number or of an
    exponent. -/
theorem sign_repr (n : Int) (rest : Input) :
    numberSign (chars n.repr.toList ++ rest) =
        (decide (n < 0), chars (Nat.toDigits 10 n.natAbs) ++ rest) ∧
      exponentSign (chars n.repr.toList ++ rest) =
        (decide (n < 0), chars (Nat.toDigits 10 n.natAbs) ++ rest) := by
  rw [toList_repr]
  by_cases hn : n < 0
  · simp [hn, numberSign, exponentSign]
  · obtain ⟨c, cs, hcs, hc⟩ := exists_chars_toDigits n.natAbs rest
    have hsign : c ≠ '-' ∧ c ≠ '+' := by
      constructor <;> rintro rfl <;> simp [isDigit] at hc
    simp [hn, hcs, numberSign, exponentSign, hsign]

theorem spanDigits_toDigits (n : Nat) {rest : Input} (h : NoDigit rest) :
    spanDigits (chars (Nat.toDigits 10 n) ++ rest) = (Nat.toDigits 10 n, rest) :=
  spanDigits_append (fun _ hc => isDigit_of_mem_toDigits hc) h

theorem isEmpty_toDigits (n : Nat) : (Nat.toDigits 10 n).isEmpty = false := by
  simp [Nat.toDigits_ne_nil]

/-- The digits of a number pass the check for zeros at their front. -/
theorem toDigits_fit (n : Nat) :
    ((Nat.toDigits 10 n).isEmpty || ((Nat.toDigits 10 n).head? == some '0' &&
      (Nat.toDigits 10 n).length != 1)) = false := by
  rw [isEmpty_toDigits, Bool.false_or]
  by_cases hn : n = 0
  · simp [hn]
  · simp [head?_toDigits hn]

theorem number?_repr (n : Int) {rest : Input} (h : Follows rest) :
    number? (chars n.repr.toList ++ rest) = some (.int n, rest) := by
  obtain ⟨hfraction, hexponent⟩ := h.no_parts
  simp only [number?, (sign_repr n rest).1, spanDigits_toDigits _ h.noDigit, toDigits_fit]
  simp [hfraction, hexponent, digitsValue_toDigits, signed_natAbs]

theorem number?_repr_exponent (m e : Int) {rest : Input} (h : Follows rest) :
    number? (chars (m.repr.toList ++ 'e' :: e.repr.toList) ++ rest) =
      some (.decimal m e, rest) := by
  have hnodigit : NoDigit (some 'e' :: (chars e.repr.toList ++ rest)) := by
    intro c cs hcs
    cases hcs
    rfl
  have hexponent : exponentRest? (some 'e' :: (chars e.repr.toList ++ rest)) =
      some (some e, rest) := by
    simp [exponentRest?, (sign_repr e rest).2, spanDigits_toDigits _ h.noDigit,
      Nat.toDigits_ne_nil, digitsValue_toDigits, signed_natAbs]
  rw [chars_append, chars_cons, List.append_assoc, List.cons_append]
  simp only [number?, (sign_repr m _).1, spanDigits_toDigits _ hnodigit, toDigits_fit]
  simp [fractionRest?, hexponent, digitsValue_toDigits, signed_natAbs]

/-! ## §4 Values -/

theorem blank_newline (level : Nat) : Blank (newline level) := by
  intro c hc
  rcases List.mem_cons.1 hc with rfl | hc
  · rfl
  · rw [(List.mem_replicate.1 hc).2]
    rfl

theorem blank_single : Blank [' '] := List.forall_mem_singleton.2 rfl

/-- A string behind its opening quotation mark. -/
theorem stringRest?_quote (s : String) :
    stringRest? (chars (s.toList.flatMap escapeChar) ++ [some '"']) = some (chars s.toList, []) :=
  stringRest?_flatMap s.toList []

theorem chars_quote (s : String) :
    chars (quote s) = some '"' :: (chars (s.toList.flatMap escapeChar) ++ [some '"']) := by
  simp [quote]

/-- A key, a colon and a value on a line of their own. -/
theorem spellsMember_print {level : Nat} (k : String) {n : Node} {cs : Input} (h : Spells n cs) :
    SpellsMember (some k, n)
      (chars (newline level) ++ (chars (quote k) ++ (some ':' :: some ' ' :: cs))) := by
  have hmember := SpellsMember.pair (blank_newline level) (stringRest?_quote k) blank_nil
    (h.blank_append blank_single)
  rw [contentsText_chars] at hmember
  simpa [chars_quote] using hmember

mutual

theorem spellsBare_print : ∀ (v : Json) (level : Nat), SpellsBare v.toNode (chars (print level v))
  | .null, level => .null
  | .bool true, level => .isTrue
  | .bool false, level => .isFalse
  | .int n, level => by
    have hnumber := number?_repr n follows_nil
    rw [List.append_nil] at hnumber
    exact .number hnumber
  | .decimal m e, level => by
    have hnumber := number?_repr_exponent m e follows_nil
    rw [List.append_nil] at hnumber
    exact .number hnumber
  | .str s, level => by
    have hstr := SpellsBare.str (stringRest?_quote s)
    rw [contentsText_chars] at hstr
    rw [print, chars_quote]
    exact hstr
  | .arr [], level => .noItems blank_nil
  | .arr (v :: vs), level => by
    have hitems := spellsItems_print (v :: vs) (level + 1) level (by simp)
    simpa [print, printItems, toNode] using SpellsBare.items hitems
  | .obj [], level => .noMembers blank_nil
  | .obj ((k, v) :: ms), level => by
    have hmembers := spellsMembers_print ((k, v) :: ms) (level + 1) level (by simp)
    simpa [print, printMembers, toNode] using SpellsBare.members hmembers

/-- The items of an array, up to its closing bracket. -/
theorem spellsItems_print : ∀ (vs : List Json) (level level' : Nat), vs ≠ [] →
    SpellsItems (toNodes vs) (chars (printItems level vs).tail ++ chars (newline level'))
  | [], _, _, h => absurd rfl h
  | [v], level, level', _ => by
    have hvalue := spellsBare_print v level
    simpa [printItems, toNodes] using
      SpellsItems.last (.padded (blank_newline level) hvalue (blank_newline level'))
  | v :: w :: vs, level, level', _ => by
    have hvalue := spellsBare_print v level
    have hitems := spellsItems_print (w :: vs) level level' (by simp)
    simpa [printItems, toNodes] using
      SpellsItems.more (.padded (blank_newline level) hvalue blank_nil) hitems

/-- The members of an object, up to its closing brace. -/
theorem spellsMembers_print : ∀ (ms : List (String × Json)) (level level' : Nat), ms ≠ [] →
    SpellsMembers (toMembers ms) (chars (printMembers level ms).tail ++ chars (newline level'))
  | [], _, _, h => absurd rfl h
  | [(k, v)], level, level', _ => by
    have hvalue := spellsBare_print v level
    simpa [printMembers, toMembers] using SpellsMembers.last
      (spellsMember_print k (.padded blank_nil hvalue (blank_newline level')))
  | (k, v) :: m :: ms, level, level', _ => by
    have hvalue := spellsBare_print v level
    have hmembers := spellsMembers_print (m :: ms) level level' (by simp)
    simpa [printMembers, toMembers] using SpellsMembers.more
      (spellsMember_print k (.padded blank_nil hvalue blank_nil)) hmembers

end

/-! ## §5 Documents -/

/-- A printed value with white space behind it is a document without faults. -/
theorem ofInput_print (v : Json) {tail : List Char} (h : Blank tail) :
    Document.ofInput (chars (print 0 v ++ tail)) = ⟨v.toNode, true⟩ := by
  have hspells := Spells.padded blank_nil (spellsBare_print v 0) h
  rw [chars_append]
  exact spells_iff.1 hspells

/-- The octets of a printed value are read back. -/
theorem ofOctets_render (v : Json) {tail : String} (h : Blank tail.toList) :
    Document.ofOctets (Text.encode (v.render ++ tail)) = ⟨v.toNode, true⟩ := by
  have hscan := Text.scan_encode_append (print 0 v ++ tail.toList) []
  rw [List.append_nil, show Text.scan [] = [] from rfl, List.append_nil] at hscan
  rw [Document.ofOctets, Text.encode, render, String.toList_append, String.toList_ofList, hscan]
  exact ofInput_print v h

end TypeAtlas.Json
