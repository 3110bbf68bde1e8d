/-!
# Ordered sets

A finite set is kept as its one strictly ascending list, so two sets with the same members are
the same value, and listing a set in order is reading it off.

Main statements: `OrdSet.mem_union`, `OrdSet.mem_insert`, `OrdSet.mem_ofList`, `OrdSet.mem_filter`
say what each operation does to membership; `OrdSet.ext` says that membership is all there is.
-/

namespace TypeAtlas

variable {α : Type} [Ord α]

/-! ## §1 Ascending lists -/

/-- A list each of whose elements comes strictly before all later ones. -/
def Ascending (xs : List α) : Prop :=
  xs.Pairwise (fun a b => compare a b = .lt)

instance (xs : List α) : Decidable (Ascending xs) :=
  inferInstanceAs (Decidable (xs.Pairwise (fun a b => compare a b = .lt)))

/-- Merge two ascending lists, keeping one copy of what both hold. Every element of the second
    list is passed over once. -/
def mergeAscending : List α → List α → List α
  | [], ys => ys
  | x :: xs, ys =>
    ys.takeWhile (fun y => compare y x == .lt) ++
      x :: mergeAscending xs (ys.dropWhile (fun y => compare y x != .gt))

section Laws

variable [Std.TransOrd α] [Std.LawfulEqOrd α]

omit [Ord α] [Std.TransOrd α] [Std.LawfulEqOrd α] in
private theorem mem_takeWhile_imp {p : α → Bool} {xs : List α} {a : α} (h : a ∈ xs.takeWhile p) :
    p a = true ∧ a ∈ xs := by
  induction xs with
  | nil => simp at h
  | cons x xs ih =>
    rw [List.takeWhile_cons] at h
    split at h
    · rcases List.mem_cons.1 h with rfl | h
      · exact ⟨by assumption, List.mem_cons_self⟩
      · exact ⟨(ih h).1, List.mem_cons_of_mem _ (ih h).2⟩
    · simp at h

omit [Ord α] [Std.TransOrd α] [Std.LawfulEqOrd α] in
private theorem mem_dropWhile_imp {p : α → Bool} {xs : List α} {a : α} (h : a ∈ xs.dropWhile p) :
    a ∈ xs := (List.dropWhile_sublist p).mem h

omit [Std.LawfulEqOrd α] in
/-- In an ascending list, what survives dropping all elements up to `x` comes after `x`. -/
private theorem gt_of_mem_dropWhile {x : α} {ys : List α} (hy : Ascending ys) {a : α}
    (h : a ∈ ys.dropWhile (fun y => compare y x != .gt)) : compare a x = .gt := by
  induction ys with
  | nil => simp at h
  | cons y ys ih =>
    rw [List.dropWhile_cons] at h
    split at h
    · exact ih hy.of_cons h
    · next hgt =>
      have hyx : compare y x = .gt := by simpa using hgt
      rcases List.mem_cons.1 h with rfl | h
      · exact hyx
      · have hya : compare y a = .lt := List.rel_of_pairwise_cons hy h
        have hxy : compare x y = .lt := Std.OrientedCmp.gt_iff_lt.1 hyx
        exact Std.OrientedCmp.gt_iff_lt.2 (Std.TransCmp.lt_trans hxy hya)

omit [Std.TransOrd α] [Std.LawfulEqOrd α] in
/-- An element that is neither before `x` nor `x` itself is not dropped with them. -/
private theorem mem_dropWhile_of_gt {x : α} {ys : List α} {a : α} (h : a ∈ ys)
    (hy : Ascending ys) (hax : compare a x = .gt) :
    a ∈ ys.dropWhile (fun y => compare y x != .gt) := by
  induction ys with
  | nil => simp at h
  | cons y ys ih =>
    rw [List.dropWhile_cons]
    split
    · next hne =>
      rcases List.mem_cons.1 h with rfl | h
      · simp [hax] at hne
      · exact ih h hy.of_cons
    · exact h

omit [Std.LawfulEqOrd α] in
private theorem mem_takeWhile_of_lt {x : α} {ys : List α} {a : α} (h : a ∈ ys)
    (hy : Ascending ys) (hax : compare a x = .lt) :
    a ∈ ys.takeWhile (fun y => compare y x == .lt) := by
  induction ys with
  | nil => simp at h
  | cons y ys ih =>
    rw [List.takeWhile_cons]
    rcases List.mem_cons.1 h with rfl | h
    · simp [hax]
    · have hya : compare y a = .lt := List.rel_of_pairwise_cons hy h
      have hyx : compare y x = .lt := Std.TransCmp.lt_trans hya hax
      simp [hyx, ih h hy.of_cons]

/-- Merging keeps exactly the members of both lists. -/
theorem mem_mergeAscending {xs ys : List α} (hy : Ascending ys) {a : α} :
    a ∈ mergeAscending xs ys ↔ a ∈ xs ∨ a ∈ ys := by
  induction xs generalizing ys with
  | nil => simp [mergeAscending]
  | cons x xs ih =>
    have hd : Ascending (ys.dropWhile (fun y => compare y x != .gt)) :=
      List.Pairwise.sublist (List.dropWhile_sublist _) hy
    simp only [mergeAscending, List.mem_append, List.mem_cons, ih hd]
    constructor
    · rintro (h | rfl | h | h)
      · exact .inr (mem_takeWhile_imp h).2
      · exact .inl (.inl rfl)
      · exact .inl (.inr h)
      · exact .inr (mem_dropWhile_imp h)
    · rintro ((rfl | h) | h)
      · exact .inr (.inl rfl)
      · exact .inr (.inr (.inl h))
      · -- a member of `ys` stands before `x`, or is `x`, or stands in the rest
        cases hc : compare a x with
        | lt => exact .inl (mem_takeWhile_of_lt h hy hc)
        | eq => exact .inr (.inl (Std.LawfulEqCmp.eq_of_compare hc))
        | gt => exact .inr (.inr (.inr (mem_dropWhile_of_gt h hy hc)))

/-- Merging ascending lists gives an ascending list. -/
theorem ascending_mergeAscending {xs ys : List α} (hx : Ascending xs) (hy : Ascending ys) :
    Ascending (mergeAscending xs ys) := by
  induction xs generalizing ys with
  | nil => exact hy
  | cons x xs ih =>
    have hd : Ascending (ys.dropWhile (fun y => compare y x != .gt)) :=
      List.Pairwise.sublist (List.dropWhile_sublist _) hy
    have after : ∀ b ∈ mergeAscending xs (ys.dropWhile (fun y => compare y x != .gt)),
        compare x b = .lt := by
      intro b hb
      rcases (mem_mergeAscending hd).1 hb with h | h
      · exact List.rel_of_pairwise_cons hx h
      · exact Std.OrientedCmp.gt_iff_lt.1 (gt_of_mem_dropWhile hy h)
    refine List.pairwise_append.2 ⟨List.Pairwise.sublist (List.takeWhile_sublist _) hy,
      List.pairwise_cons.2 ⟨after, ih hx.of_cons hd⟩, ?_⟩
    -- what was taken stands before `x`, so before all that follows `x`
    intro a ha b hb
    have hax : compare a x = .lt := by simpa using (mem_takeWhile_imp ha).1
    rcases List.mem_cons.1 hb with rfl | hb
    · exact hax
    · exact Std.TransCmp.lt_trans hax (after b hb)

/-- An ascending list is determined by its members. -/
theorem Ascending.eq_of_mem_iff {xs ys : List α} (hx : Ascending xs) (hy : Ascending ys)
    (h : ∀ a, a ∈ xs ↔ a ∈ ys) : xs = ys := by
  induction xs generalizing ys with
  | nil => exact (List.eq_nil_iff_forall_not_mem.2 fun a ha => by simpa using (h a).2 ha).symm
  | cons x xs ih =>
    cases ys with
    | nil => exact absurd ((h x).1 List.mem_cons_self) (by simp)
    | cons y ys =>
      have irrefl : ∀ a : α, compare a a ≠ .lt := fun a => by simp
      have hxy : x = y := by
        rcases List.mem_cons.1 ((h x).1 List.mem_cons_self) with h1 | h1
        · exact h1
        · rcases List.mem_cons.1 ((h y).2 List.mem_cons_self) with h2 | h2
          · exact h2.symm
          · -- otherwise each of the two comes before the other one
            have l1 : compare y x = .lt := List.rel_of_pairwise_cons hy h1
            have l2 : compare x y = .lt := List.rel_of_pairwise_cons hx h2
            exact absurd (Std.TransCmp.lt_trans l1 l2) (irrefl y)
      subst hxy
      congr 1
      refine ih hx.of_cons hy.of_cons fun a => ?_
      constructor
      · intro ha
        rcases List.mem_cons.1 ((h a).1 (List.mem_cons_of_mem _ ha)) with rfl | h'
        · exact absurd (List.rel_of_pairwise_cons hx ha) (irrefl a)
        · exact h'
      · intro ha
        rcases List.mem_cons.1 ((h a).2 (List.mem_cons_of_mem _ ha)) with rfl | h'
        · exact absurd (List.rel_of_pairwise_cons hy ha) (irrefl a)
        · exact h'

end Laws

/-! ## §2 Sets -/

/-- A finite set, kept as the strictly ascending list of its members. -/
structure OrdSet (α : Type) [Ord α] where
  /-- The members in ascending order. -/
  toList : List α
  /-- The order is strict, so no member is listed twice. -/
  ascending : Ascending toList

namespace OrdSet

instance [DecidableEq α] : DecidableEq (OrdSet α) := fun s t =>
  decidable_of_iff (s.toList = t.toList)
    ⟨fun h => by cases s; cases t; cases h; rfl, fun h => by rw [h]⟩

instance [Repr α] : Repr (OrdSet α) := ⟨fun s n => reprPrec s.toList n⟩

instance : Membership α (OrdSet α) := ⟨fun s a => a ∈ s.toList⟩

instance [DecidableEq α] (a : α) (s : OrdSet α) : Decidable (a ∈ s) :=
  inferInstanceAs (Decidable (a ∈ s.toList))

@[simp] theorem mem_toList {a : α} {s : OrdSet α} : a ∈ s.toList ↔ a ∈ s := Iff.rfl

/-- The set without members. -/
def empty : OrdSet α := ⟨[], List.Pairwise.nil⟩

instance : EmptyCollection (OrdSet α) := ⟨empty⟩

instance : Inhabited (OrdSet α) := ⟨empty⟩

@[simp] theorem not_mem_empty (a : α) : a ∉ (∅ : OrdSet α) := List.not_mem_nil

/-- The number of members. -/
def size (s : OrdSet α) : Nat := s.toList.length

/-- The members that pass the test. -/
def filter (p : α → Bool) (s : OrdSet α) : OrdSet α :=
  ⟨s.toList.filter p, s.ascending.filter p⟩

@[simp] theorem mem_filter {p : α → Bool} {s : OrdSet α} {a : α} :
    a ∈ s.filter p ↔ a ∈ s ∧ p a = true := List.mem_filter

section Laws

variable [Std.TransOrd α] [Std.LawfulEqOrd α]

/-- The set with one member. -/
def singleton (a : α) : OrdSet α := ⟨[a], List.pairwise_singleton _ a⟩

/-- All members of both sets. -/
def union (s t : OrdSet α) : OrdSet α :=
  ⟨mergeAscending s.toList t.toList, ascending_mergeAscending s.ascending t.ascending⟩

/-- The set with `a` added. -/
def insert (a : α) (s : OrdSet α) : OrdSet α := (singleton a).union s

/-- The set of the elements of a list: its halves are gathered and united, `halvings` times over,
    and what is left of them goes in one by one. -/
def gather : Nat → List α → OrdSet α
  | 0, xs => xs.foldr (fun a s => s.insert a) ∅
  | halvings + 1, xs =>
    (gather halvings (xs.take (xs.length / 2))).union (gather halvings (xs.drop (xs.length / 2)))

/-- The set of the elements of a list, whatever their order and number of copies. The list is halved
    until a few elements are left, so that no element is passed over often. -/
def ofList (xs : List α) : OrdSet α := gather xs.length.log2 xs

omit [Std.TransOrd α] [Std.LawfulEqOrd α] in
@[simp] theorem mem_singleton {a b : α} : a ∈ singleton b ↔ a = b := List.mem_singleton

@[simp] theorem mem_union {s t : OrdSet α} {a : α} : a ∈ s.union t ↔ a ∈ s ∨ a ∈ t :=
  mem_mergeAscending t.ascending

@[simp] theorem mem_insert {s : OrdSet α} {a b : α} : a ∈ s.insert b ↔ a = b ∨ a ∈ s := by
  simp [insert]

/-- However often the list is halved, its elements are gathered. -/
theorem mem_gather {halvings : Nat} {xs : List α} {a : α} : a ∈ gather halvings xs ↔ a ∈ xs := by
  induction halvings generalizing xs with
  | zero =>
    rw [gather]
    induction xs with
    | nil => simp
    | cons x xs ih => rw [List.foldr_cons, mem_insert, ih, List.mem_cons]
  | succ halvings ih =>
    rw [gather, mem_union, ih, ih, ← List.mem_append, List.take_append_drop]

@[simp] theorem mem_ofList {xs : List α} {a : α} : a ∈ ofList xs ↔ a ∈ xs := mem_gather

omit [Std.TransOrd α] in
/-- No member is listed twice. -/
theorem nodup_toList (s : OrdSet α) : s.toList.Nodup := by
  refine s.ascending.imp fun hlt heq => ?_
  subst heq
  simp at hlt

/-- Two sets with the same members are the same set. -/
theorem ext {s t : OrdSet α} (h : ∀ a, a ∈ s ↔ a ∈ t) : s = t := by
  cases s; cases t
  congr 1
  exact Ascending.eq_of_mem_iff ‹_› ‹_› h

end Laws

end OrdSet

end TypeAtlas
