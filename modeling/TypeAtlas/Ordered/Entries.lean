/-!
# Entries in the order of writing

Named entries that keep the place at which their name was first written. Writing a name again
changes its value and not its place.
-/

namespace TypeAtlas

/-- Named entries, in the order in which their names were first written. -/
abbrev Entries (β : Type) := List (String × β)

namespace Entries

variable {β : Type}

/-- The value of a name. -/
def get? : Entries β → String → Option β
  | [], _ => none
  | (k, v) :: rest, n => if k = n then some v else get? rest n

/-- Whether a name has a value. -/
def has (es : Entries β) (n : String) : Bool := (es.get? n).isSome

/-- Write a value: a name that is there keeps its place, a new one comes last. -/
def put (n : String) (b : β) : Entries β → Entries β
  | [] => [(n, b)]
  | (k, v) :: rest => if k = n then (k, b) :: rest else (k, v) :: put n b rest

/-- Take a name away. -/
def erase (n : String) (es : Entries β) : Entries β := es.filter fun e => e.1 != n

@[simp] theorem get?_put {n k : String} {b : β} {es : Entries β} :
    get? (put n b es) k = if n = k then some b else get? es k := by
  induction es with
  | nil => simp [put, get?]
  | cons e rest ih =>
    obtain ⟨j, v⟩ := e
    by_cases hj : j = n
    · subst hj
      by_cases hk : j = k <;> simp [put, get?, hk]
    · by_cases hk : j = k
      · subst hk
        have : n ≠ j := fun h => hj h.symm
        simp [put, get?, hj, this]
      · simp [put, get?, hj, hk, ih]

theorem mem_names_iff {n : String} {es : Entries β} :
    n ∈ es.map Prod.fst ↔ (es.get? n).isSome = true := by
  induction es with
  | nil => simp [get?]
  | cons e rest ih =>
    obtain ⟨k, v⟩ := e
    rw [List.map_cons, List.mem_cons, get?, ih]
    split
    · next hk => simp [hk]
    · next hk => simp [Ne.symm hk]

/-- A name that is written keeps its place or comes last. -/
theorem names_put {n : String} {b : β} {es : Entries β} :
    (es.put n b).map Prod.fst = if n ∈ es.map Prod.fst then es.map Prod.fst
      else es.map Prod.fst ++ [n] := by
  induction es with
  | nil => rfl
  | cons e rest ih =>
    obtain ⟨k, v⟩ := e
    rw [put]
    by_cases hk : k = n
    · subst hk
      simp
    · have hn : n ≠ k := fun h => hk h.symm
      simp only [if_neg hk, List.map_cons, ih, List.mem_cons, hn, false_or]
      split <;> rfl

end Entries

end TypeAtlas
