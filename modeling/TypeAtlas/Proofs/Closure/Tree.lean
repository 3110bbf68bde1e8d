import TypeAtlas.Closure.Tree
import TypeAtlas.Proofs.Closure.Exploration

/-!
# Closure trees of finished walks

How the tree of an exploration hangs together. Building it needs no more levels than there are types
besides the root, so the entries under a type are those of all types found through it, each one
reference further away.

Main statement: `Walk.Orderly.entriesUnder_eq`.
-/

namespace TypeAtlas

theorem Exploration.mem_foundThrough_iff {x : Exploration} {parent t : TypeName} :
    t ∈ x.foundThrough parent ↔ (t, parent) ∈ x.parents := by
  unfold foundThrough
  simp only [OrdSet.mem_ofList, List.mem_map, List.mem_filter, beq_iff_eq]
  apply Iff.intro
  · intro h
    obtain ⟨⟨t, parent⟩, ⟨hmem, rfl⟩, rfl⟩ := h
    exact hmem
  · intro h
    exact ⟨(t, parent), ⟨h, rfl⟩, rfl⟩

/-- The tree has an entry of the type, at its top or further down. -/
inductive ClosureEntry.Holds (t : TypeName) : ClosureEntry → Prop where
  | top {depth : Nat} {expanded unresolved : Bool} {children : List ClosureEntry} :
      Holds t (.node t depth expanded unresolved children)
  | under {u : TypeName} {depth : Nat} {expanded unresolved : Bool}
      {children : List ClosureEntry} {child : ClosureEntry} :
      child ∈ children → Holds t child → Holds t (.node u depth expanded unresolved children)

/-- The trees under a type hold only types that were found through another one. -/
theorem Exploration.mem_parents_of_holds {x : Exploration} {height : Nat} {parent t : TypeName}
    {entry : ClosureEntry} (hentry : entry ∈ x.entriesUnder height parent)
    (ht : entry.Holds t) : t ∈ x.parents.map Prod.fst := by
  induction height generalizing parent entry with
  | zero => cases hentry
  | succ height ih =>
    unfold entriesUnder at hentry
    obtain ⟨u, hu, rfl⟩ := List.mem_map.1 hentry
    cases ht with
    | top => exact List.mem_map_of_mem (mem_foundThrough_iff.1 hu)
    | under hchild hholds => exact ih hchild hholds

namespace Walk

namespace Orderly

variable {refs : Refs} {root : TypeName} {bound : Bound} {w : Walk}

/-! ## §1 Distances -/

/-- The distance that an exploration tells for a type is the one at which it was found. -/
theorem depthOf_eq (h : Finished refs root bound w) {t : TypeName} {k : Nat}
    (ht : (t, k) ∈ w.depths) : (w.exploration root bound).depthOf t = k := by
  have hdepths : (w.exploration root bound).depths = w.depths := rfl
  unfold Exploration.depthOf
  rw [hdepths]
  cases hfind : w.depths.find? fun e => e.1 == t with
  | none => exact absurd (List.find?_eq_none.1 hfind (t, k) ht) (by simp)
  | some e =>
    obtain ⟨u, j⟩ := e
    have hut : u = t := by simpa using List.find?_some hfind
    subst hut
    exact h.depth_unique (List.mem_of_find?_eq_some hfind) ht

/-- A type is one reference further away than the one through which it was found. -/
theorem depth_of_mem_parents (h : Finished refs root bound w) {t p : TypeName} {k : Nat}
    (hp : (t, p) ∈ w.parents) (hk : (p, k) ∈ w.depths) : (t, k + 1) ∈ w.depths := by
  obtain ⟨j, -, hj, -, hdepth, -⟩ := h.parent t p hp
  rwa [h.depth_unique hj hk] at hdepth

/-- No distance is passed over on the way to a type. -/
theorem exists_at_depth (h : Finished refs root bound w) {t : TypeName} {k j : Nat}
    (ht : (t, k) ∈ w.depths) (hjk : j ≤ k) : ∃ u, (u, j) ∈ w.depths := by
  induction k generalizing t with
  | zero =>
    cases Nat.le_zero.1 hjk
    exact ⟨t, ht⟩
  | succ k ih =>
    by_cases hj : j = k + 1
    · exact ⟨t, hj ▸ ht⟩
    · -- go back to the type before it
      obtain ⟨p, hp, -, -⟩ := h.exists_parent ht
      exact ih hp (by omega)

/-- No type is further away than there are types besides the root. -/
theorem depth_le_length_parents (h : Finished refs root bound w) {e : TypeName × Nat}
    (he : e ∈ w.depths) : e.2 ≤ w.parents.length := by
  have hsub : List.range (e.2 + 1) ⊆ w.depths.map Prod.snd := by
    intro j hj
    obtain ⟨u, hu⟩ := h.exists_at_depth he (Nat.le_of_lt_succ (List.mem_range.1 hj))
    exact List.mem_map_of_mem hu
  have hle := List.nodup_range.length_le_of_subset hsub
  obtain ⟨rest, hdepths, hparents⟩ := h.from_root
  have hlength : w.parents.length = rest.length := by
    simpa using congrArg List.length hparents
  rw [List.length_range, List.length_map, hdepths, List.length_cons] at hle
  omega

/-! ## §2 Entries -/

/-- With room for all distances that occur, the entries under a type are those of the types found
    through it. -/
theorem entriesUnder_eq (h : Finished refs root bound w) {t : TypeName} {k height : Nat}
    (ht : (t, k) ∈ w.depths) (hheight : ∀ e ∈ w.depths, e.2 ≤ k + height) :
    (w.exploration root bound).entriesUnder height t =
      ((w.exploration root bound).foundThrough t).toList.map fun u =>
        .node u (k + 1) (w.adjacency.expands u) (u ∈ w.unresolved)
          ((w.exploration root bound).entriesUnder (height - 1) u) := by
  cases height with
  | zero =>
    -- no type is further away than `t`, so none was found through it
    have hnone : ((w.exploration root bound).foundThrough t).toList = [] := by
      apply List.eq_nil_iff_forall_not_mem.2
      intro u hu
      have hdepth := h.depth_of_mem_parents (Exploration.mem_foundThrough_iff.1 hu) ht
      exact absurd (hheight _ hdepth) (Nat.not_succ_le_self k)
    rw [hnone]
    rfl
  | succ height =>
    rw [Nat.add_sub_cancel, Exploration.entriesUnder]
    apply List.map_congr_left
    intro u hu
    rw [h.depthOf_eq (h.depth_of_mem_parents (Exploration.mem_foundThrough_iff.1 hu) ht)]
    rfl

end Orderly

end Walk

end TypeAtlas
