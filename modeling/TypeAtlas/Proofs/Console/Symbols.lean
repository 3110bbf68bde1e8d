import TypeAtlas.Console.Markup

/-!
# Texts and codes for symbols

A text whose codes name no symbols that the console knows is left as it is. Any other text has fewer
colons once its codes have been replaced, so that it can be told apart; and in no case does a
replacement bring in what could be taken for markup.

Main statements: `Markup.Symbols.replace_of_unknown` and `Markup.Symbols.count_replace_lt`.
-/

namespace TypeAtlas.Markup

/-! ## §1 The codes in a text -/

/-- The texts between the colons of the codes in a text of which the first `skip` characters have
    been dealt with. -/
def codesFrom : (skip : Nat) → List Char → List (List Char)
  | _, [] => []
  | skip + 1, _ :: cs => codesFrom skip cs
  | 0, c :: cs =>
    match Symbols.codeBody? c cs with
    | none => codesFrom 0 cs
    | some body => body :: codesFrom (body.length + 1) cs

/-- The texts between the colons of the codes in a text. -/
def codes (cs : List Char) : List (List Char) := codesFrom 0 cs

/-- A character that has a meaning for markup or for codes. -/
def isMark (c : Char) : Bool := c == ':' || c == '[' || c == '\\'

theorem ne_of_isMark {m c : Char} (hm : isMark m = true) (hc : isMark c = false) : m ≠ c := by
  rintro rfl
  simp [hm] at hc

namespace Symbols

variable {symbols : Symbols}

theorem upToColon?_eq_some {cs body : List Char} (h : upToColon? cs = some body) :
    ∃ rest, cs = body ++ ':' :: rest := by
  induction cs generalizing body with
  | nil => cases h
  | cons c cs ih =>
    rw [upToColon?] at h
    split at h
    · next hc =>
      cases h
      exact ⟨cs, by rw [hc, List.nil_append]⟩
    · split at h
      · cases h
      · obtain ⟨inner, hinner, rfl⟩ := Option.map_eq_some_iff.1 h
        obtain ⟨rest, rfl⟩ := ih hinner
        exact ⟨rest, rfl⟩

theorem codeBody?_eq_some {c : Char} {cs body : List Char} (h : codeBody? c cs = some body) :
    c = ':' ∧ ∃ rest, cs = body ++ ':' :: rest := by
  unfold codeBody? at h
  split at h
  · next hc => exact ⟨hc, upToColon?_eq_some h⟩
  · cases h

/-- What follows a code in a text. -/
theorem drop_of_code {body rest : List Char} :
    (body ++ ':' :: rest).drop (body.length + 1) = rest := by
  simp

/-! ## §2 Unknown codes -/

theorem replaceFrom_of_unknown {skip : Nat} {cs : List Char}
    (h : ∀ body ∈ codesFrom skip cs, symbols.ofCode? body = .none) :
    symbols.replaceFrom skip cs = cs.drop skip := by
  fun_induction replaceFrom symbols skip cs with
  | case1 => simp
  | case2 skip c cs ih =>
    rw [codesFrom] at h
    rw [ih h, List.drop_succ_cons]
  | case3 c cs hcode ih =>
    simp only [codesFrom, hcode] at h
    rw [ih h]
    rfl
  | case4 c cs body hcode ih =>
    -- a code that is not known is put back
    simp only [codesFrom, hcode, List.forall_mem_cons] at h
    obtain ⟨rfl, rest, rfl⟩ := codeBody?_eq_some hcode
    rw [ih h.2, drop_of_code, replacement, h.1]
    simp

/-- A text is left as it is if no code in it is known. -/
theorem replace_of_unknown {cs : List Char}
    (h : ∀ body ∈ codes cs, symbols.ofCode? body = .none) : symbols.replace cs = cs :=
  replaceFrom_of_unknown h

/-! ## §3 Known codes -/

/-- There are no marks in a symbol. -/
theorem count_ofCode? {m : Char} (hm : isMark m = true) {body cs : List Char}
    (h : symbols.ofCode? body = some cs) : cs.count m = 0 := by
  obtain ⟨text, htext, rfl⟩ := Option.map_eq_some_iff.1 h
  have hnone : m ∉ text := fun hmem => by
    have hunmarked := symbols.unmarked _ _ htext m hmem
    simp [isMark, hunmarked] at hm
  have hform : m ∉ (splitCode body).2 := by
    unfold splitCode
    split
    · next ending mark hfind =>
      have hmark := List.mem_of_find?_eq_some hfind
      simp only [forms, List.mem_cons, Prod.mk.injEq, List.not_mem_nil, or_false] at hmark
      rcases hmark with ⟨-, rfl⟩ | ⟨-, rfl⟩ <;> rw [List.mem_singleton] <;> rintro rfl <;>
        simp [isMark] at hm
    · exact List.not_mem_nil
  rw [List.count_append, List.count_eq_zero.2 hnone, List.count_eq_zero.2 hform]

theorem count_replacement_le {m : Char} (hm : isMark m = true) (body : List Char) :
    (symbols.replacement body).count m ≤ (':' :: body ++ [':']).count m := by
  unfold replacement
  cases hcode : symbols.ofCode? body with
  | none => exact Nat.le_refl _
  | some cs =>
    rw [Option.getD_some, count_ofCode? hm hcode]
    exact Nat.zero_le _

theorem count_replaceFrom_le {m : Char} (hm : isMark m = true) (skip : Nat) (cs : List Char) :
    (symbols.replaceFrom skip cs).count m ≤ (cs.drop skip).count m := by
  fun_induction replaceFrom symbols skip cs with
  | case1 => simp
  | case2 skip c cs ih => exact ih
  | case3 c cs hcode ih =>
    rw [List.drop_zero] at ih ⊢
    simp only [List.count_cons]
    omega
  | case4 c cs body hcode ih =>
    obtain ⟨rfl, rest, rfl⟩ := codeBody?_eq_some hcode
    have hone := symbols.count_replacement_le hm body
    rw [drop_of_code] at ih
    have hsplit : ':' :: (body ++ ':' :: rest) = (':' :: body ++ [':']) ++ rest := by simp
    rw [List.drop_zero, List.count_append, hsplit, List.count_append]
    omega

/-- Replacing codes brings in no marks. -/
theorem count_replace_le {m : Char} (hm : isMark m = true) (cs : List Char) :
    (symbols.replace cs).count m ≤ cs.count m := count_replaceFrom_le hm 0 cs

theorem count_replaceFrom_lt {skip : Nat} {cs : List Char}
    (h : ∃ body ∈ codesFrom skip cs, symbols.ofCode? body ≠ .none) :
    (symbols.replaceFrom skip cs).count ':' < (cs.drop skip).count ':' := by
  have hcolon : isMark ':' = true := by decide
  fun_induction replaceFrom symbols skip cs with
  | case1 => simp [codesFrom] at h
  | case2 skip c cs ih =>
    rw [codesFrom] at h
    exact ih h
  | case3 c cs hcode ih =>
    simp only [codesFrom, hcode] at h
    have hrest := ih h
    rw [List.drop_zero] at hrest ⊢
    simp only [List.count_cons]
    omega
  | case4 c cs body hcode ih =>
    simp only [codesFrom, hcode, List.mem_cons, exists_eq_or_imp] at h
    obtain ⟨rfl, rest, rfl⟩ := codeBody?_eq_some hcode
    have hone := symbols.count_replacement_le hcolon body
    have hrest := symbols.count_replaceFrom_le hcolon (body.length + 1)
      (body ++ ':' :: rest)
    have hsplit : ':' :: (body ++ ':' :: rest) = (':' :: body ++ [':']) ++ rest := by simp
    rw [drop_of_code] at ih hrest
    rw [List.drop_zero, List.count_append, hsplit, List.count_append]
    rcases h with hknown | hlater
    · -- the two colons of the code are gone
      obtain ⟨cs, hcs⟩ := Option.ne_none_iff_exists'.1 hknown
      have hzero : (symbols.replacement body).count ':' = 0 := by
        rw [replacement, hcs, Option.getD_some, count_ofCode? hcolon hcs]
      have hcolons : 0 < (':' :: body ++ [':']).count ':' := by simp
      omega
    · have hlt := ih hlater
      omega

/-- A text with a code that is known has fewer colons once the codes have been replaced. -/
theorem count_replace_lt {cs : List Char} (h : ∃ body ∈ codes cs, symbols.ofCode? body ≠ .none) :
    (symbols.replace cs).count ':' < cs.count ':' := count_replaceFrom_lt h

end Symbols

end TypeAtlas.Markup
