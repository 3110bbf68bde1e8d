/-!
# Loops

A loop takes turns, one after the other, until none is left to take. Nothing in this says that it
ever comes to its end: the stack or the queue that it works off may grow while it does. What ends a
loop is a weight that every turn makes smaller, and a loop that has come to its end once, and never
had a choice, does so always.
-/

namespace TypeAtlas

variable {σ τ : Type} {turn : σ → τ → σ → Prop}

/-- A loop takes turns, each of them told by a label, and may stop anywhere. -/
inductive Turns (turn : σ → τ → σ → Prop) : σ → List τ → σ → Prop where
  /-- No turn at all. -/
  | stop (s : σ) : Turns turn s [] s
  /-- One turn, and others after it. -/
  | go {s s' s'' : σ} {t : τ} {ts : List τ} :
      turn s t s' → Turns turn s' ts s'' → Turns turn s (t :: ts) s''

/-- From `s` the loop comes to its end in `s'`, after the turns `ts` and in no other way: whatever
    turns it may take from `s` are the first ones of `ts`, and it can always take the others. -/
structure EndsAfter (turn : σ → τ → σ → Prop) (s : σ) (ts : List τ) (s' : σ) : Prop where
  runs : Turns turn s ts s'
  stops : ∀ t s'', ¬ turn s' t s''
  only : ∀ us s'', Turns turn s us s'' → ∃ rest, ts = us ++ rest ∧ Turns turn s'' rest s'

/-- The loop has no choice. -/
def Deterministic (turn : σ → τ → σ → Prop) : Prop :=
  ∀ {s t s' u s''}, turn s t s' → turn s u s'' → t = u ∧ s' = s''

namespace Turns

variable {s s' s'' : σ} {ts us : List τ}

/-- What every turn keeps holds all through the loop. -/
theorem keeps {P : σ → Prop} (h : Turns turn s ts s')
    (hP : ∀ {s t s'}, turn s t s' → P s → P s') (hs : P s) : P s' := by
  induction h with
  | stop s => exact hs
  | go hturn _ ih => exact ih (hP hturn hs)

/-- If every turn makes the state lighter, then the loop takes no more turns than that weighs. -/
theorem length_add_weight_le {weight : σ → Nat} (h : Turns turn s ts s')
    (hweight : ∀ {s t s'}, turn s t s' → weight s' < weight s) :
    ts.length + weight s' ≤ weight s := by
  induction h with
  | stop s => simp
  | go hturn _ ih =>
    have hlt := hweight hturn
    simp only [List.length_cons]
    omega

/-- A loop without choice that has come to its end has all its runs on the way there. -/
theorem exists_rest (hdet : Deterministic turn) (h : Turns turn s ts s')
    (hstops : ∀ t s'', ¬ turn s' t s'') (hus : Turns turn s us s'') :
    ∃ rest, ts = us ++ rest ∧ Turns turn s'' rest s' := by
  induction hus generalizing ts with
  | stop s => exact ⟨ts, rfl, h⟩
  | go hturn _ ih =>
    cases h with
    | stop => exact absurd hturn (hstops _ _)
    | go hturn' hrest =>
      -- both take the same turn first
      obtain ⟨rfl, rfl⟩ := hdet hturn hturn'
      obtain ⟨rest, rfl, hgoes⟩ := ih hrest
      exact ⟨rest, rfl, hgoes⟩

theorem endsAfter (hdet : Deterministic turn) (h : Turns turn s ts s')
    (hstops : ∀ t s'', ¬ turn s' t s'') : EndsAfter turn s ts s' where
  runs := h
  stops := hstops
  only _ _ hus := h.exists_rest hdet hstops hus

end Turns

end TypeAtlas
