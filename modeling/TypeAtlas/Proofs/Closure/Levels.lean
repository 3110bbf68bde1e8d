import TypeAtlas.Report.Objects

/-!
# Levels of closure trees

A recursion over the entries of a closure tree needs a call for each level of it, one inside the
other. So it comes to what it would come to without any limit if the call stack has room for all
levels, and to nothing if not.

Main statements: `ClosureEntry.foldAll?_eq` and `ClosureTree.toJson?_of_fits`.
-/

namespace TypeAtlas

/-! ## §1 Recursions over entries -/

namespace ClosureEntry

variable {α : Type} (form : TypeName → Nat → Bool → Bool → List α → α)

mutual

/-- The number of levels of an entry with all under it. -/
def height : ClosureEntry → Nat
  | .node _ _ _ _ children => levels children + 1

/-- The number of levels of a list of trees. -/
def levels : List ClosureEntry → Nat
  | [] => 0
  | e :: rest => max (height e) (levels rest)

end

mutual

/-- What a recursion makes of an entry if nothing limits it. -/
def fold : ClosureEntry → α
  | .node type depth expanded unresolved children =>
    form type depth expanded unresolved (foldAll children)

/-- What a recursion makes of the entries of a list if nothing limits it. -/
def foldAll : List ClosureEntry → List α
  | [] => []
  | e :: rest => fold e :: foldAll rest

end

mutual

/-- A recursion over an entry comes to an end if there is room for its levels. -/
theorem fold?_eq (room : Nat) (e : ClosureEntry) :
    fold? form room e = if e.height ≤ room then some (fold form e) else none := by
  cases e with
  | node type depth expanded unresolved children =>
    cases room with
    | zero => simp [fold?, height]
    | succ room =>
      rw [fold?, foldAll?_eq room children, height, fold]
      by_cases h : levels children ≤ room
      · simp [h]
      · simp [h]

theorem foldAll?_eq (room : Nat) (es : List ClosureEntry) :
    foldAll? form room es = if levels es ≤ room then some (foldAll form es) else none := by
  cases es with
  | nil => simp [foldAll?, foldAll, levels]
  | cons e rest =>
    rw [foldAll?, fold?_eq room e, foldAll?_eq room rest, levels, foldAll]
    simp only [Nat.max_le]
    by_cases he : e.height ≤ room
    · by_cases hrest : levels rest ≤ room
      · simp [he, hrest]
      · simp [he, hrest]
    · simp [he]

end

mutual

/-- The number of entries in a tree. -/
def size : ClosureEntry → Nat
  | .node _ _ _ _ children => 1 + sizes children

/-- The number of entries in a list of trees. -/
def sizes : List ClosureEntry → Nat
  | [] => 0
  | e :: rest => size e + sizes rest

end

mutual

theorem fold_countForm (e : ClosureEntry) : fold countForm e = e.size := by
  cases e with
  | node type depth expanded unresolved children =>
    rw [fold, countForm, total_foldAll_countForm children, size]

theorem total_foldAll_countForm (es : List ClosureEntry) :
    total (foldAll countForm es) = sizes es := by
  cases es with
  | nil => rfl
  | cons e rest =>
    have hrest : total (foldAll countForm rest) = sizes rest := total_foldAll_countForm rest
    rw [foldAll, sizes, ← hrest, fold_countForm e]
    rfl

end

/-- Entries are counted if there is room for their levels. -/
theorem count?_eq (room : Nat) (es : List ClosureEntry) :
    count? room es = if levels es ≤ room then some (sizes es) else none := by
  rw [count?, foldAll?_eq, ← total_foldAll_countForm]
  split <;> rfl

theorem levels_map_le_iff {β : Type} {f : β → ClosureEntry} {bs : List β} {k : Nat} :
    levels (bs.map f) ≤ k ↔ ∀ b ∈ bs, (f b).height ≤ k := by
  induction bs with
  | nil => simp [levels]
  | cons b bs ih => rw [List.map_cons, levels, Nat.max_le, ih, List.forall_mem_cons]

end ClosureEntry

/-! ## §2 The JSON form of a tree -/

namespace ClosureTree

/-- The call stack has room for the levels of a tree in both recursions that its JSON form takes. -/
def Fits (stack : CallStack) (c : ClosureTree) : Prop :=
  ClosureEntry.levels c.entries ≤ stack.counting ∧
    ClosureEntry.levels c.entries ≤ stack.converting

/-- The JSON form of a tree if nothing limits the recursions. -/
def toJson (c : ClosureTree) : Json :=
  .obj [("target", .str c.target), ("max_depth", .int c.bound.toInt),
    ("total", .nat (ClosureEntry.sizes c.entries)), ("types", c.types.toJson),
    ("unresolved", c.unresolved.toJson),
    ("tree", .arr (ClosureEntry.foldAll entryForm c.entries))]

theorem toJson?_of_fits {stack : CallStack} {c : ClosureTree} (h : c.Fits stack) :
    c.toJson? stack = some c.toJson := by
  rw [toJson?, ClosureEntry.count?_eq, if_pos h.1, ClosureEntry.foldAll?_eq, if_pos h.2]
  rfl

theorem toJson?_of_not_fits {stack : CallStack} {c : ClosureTree} (h : ¬ c.Fits stack) :
    c.toJson? stack = none := by
  rw [toJson?, ClosureEntry.count?_eq, ClosureEntry.foldAll?_eq]
  by_cases hcount : ClosureEntry.levels c.entries ≤ stack.counting
  · have hconvert : ¬ ClosureEntry.levels c.entries ≤ stack.converting := fun hle => h ⟨hcount, hle⟩
    simp [hcount, hconvert]
  · simp [hcount]

/-- A JSON form of a tree is the one, and there is one if there is room. -/
theorem toJson?_eq_some_iff {stack : CallStack} {c : ClosureTree} {v : Json} :
    c.toJson? stack = some v ↔ c.Fits stack ∧ v = c.toJson := by
  by_cases h : c.Fits stack
  · simp [toJson?_of_fits h, h, eq_comm]
  · simp [toJson?_of_not_fits h, h]

theorem exists_toJson?_iff {stack : CallStack} {c : ClosureTree} :
    (∃ v, c.toJson? stack = some v) ↔ c.Fits stack := by
  simp [toJson?_eq_some_iff]

end ClosureTree

end TypeAtlas
