import TypeAtlas.Proofs.Closure.Loops
import TypeAtlas.Proofs.Closure.Spanning

/-!
# Putting closure trees together

The tree of an exploration is put together without recursion, so that no chain of types is too long
for it. A stack holds types along with places, one place for each list of siblings; a type taken
from the stack has its list filled with the types found through it, each of them is given a new
list, and is stacked. The loop ends after each type that was found has been taken once, and the
lists then read as the entries of the tree.

Main statement: `Walk.Orderly.exists_assembly`.
-/

namespace TypeAtlas

/-- An entry of a tree that is put together. In the stead of the entries under it stands the place
    of their list. -/
structure Sibling where
  type : TypeName
  depth : Nat
  expanded : Bool
  unresolved : Bool
  place : Nat
  deriving Repr, DecidableEq

/-- A tree that is put together. -/
structure Assembly where
  /-- The types to take, next one first, each with the place of its list. -/
  stack : List (TypeName × Nat)
  /-- The lists of siblings, by their places. -/
  lists : List (List Sibling)
  deriving Repr, DecidableEq

namespace Assembly

/-- Nothing is put together yet: the root is stacked, and its list is empty. -/
def start (root : TypeName) : Assembly := { stack := [(root, 0)], lists := [[]] }

/-- The lists read as a tree: `siblings`, with what stands at their places, are `entries`. -/
inductive Reads (lists : List (List Sibling)) : List Sibling → List ClosureEntry → Prop where
  | nil : Reads lists [] []
  | cons {s : Sibling} {siblings under : List Sibling} {entries children : List ClosureEntry} :
      lists[s.place]? = some under → Reads lists under children → Reads lists siblings entries →
      Reads lists (s :: siblings)
        (.node s.type s.depth s.expanded s.unresolved children :: entries)

end Assembly

namespace Exploration

/-- The types found through `p`, each with a place of its own, the first of which is `n`. -/
def placed (x : Exploration) (n : Nat) (p : TypeName) : List (TypeName × Nat) :=
  (x.foundThrough p).toList.zipIdx n

/-- The entry of a type whose list has a place. -/
def sibling (x : Exploration) (e : TypeName × Nat) : Sibling where
  type := e.1
  depth := x.depthOf e.1
  expanded := x.adjacency.expands e.1
  unresolved := e.1 ∈ x.unresolved
  place := e.2

/-- The lists after the types found through `p` have joined the list at the place `i`, and each of
    them has been given a new list. -/
def fill (x : Exploration) (lists : List (List Sibling)) (p : TypeName) (i : Nat) :
    List (List Sibling) :=
  lists.modify i (fun list => list ++ (x.placed lists.length p).map x.sibling) ++
    (x.placed lists.length p).map fun _ => []

/-- A type is taken from the stack. The types found through it join its list in the order of their
    names, and are stacked one after the other, the last of them on top. -/
inductive Takes (x : Exploration) : Assembly → TypeName → Assembly → Prop where
  | mk {p : TypeName} {i : Nat} {stack : List (TypeName × Nat)} {lists : List (List Sibling)} :
      Takes x ⟨(p, i) :: stack, lists⟩ p
        ⟨(x.placed lists.length p).reverse ++ stack, x.fill lists p i⟩

variable {x : Exploration}

theorem map_fst_placed (n : Nat) (p : TypeName) :
    (x.placed n p).map Prod.fst = (x.foundThrough p).toList := by
  unfold placed
  exact List.zipIdx_map_fst n _

/-- A type with a place stands as far from the first one as its place says. -/
theorem getElem?_of_mem_placed {n : Nat} {p : TypeName} {e : TypeName × Nat}
    (he : e ∈ x.placed n p) : n ≤ e.2 ∧ (x.placed n p)[e.2 - n]? = some e := by
  obtain ⟨t, j⟩ := e
  obtain ⟨hle, hget⟩ := List.mk_mem_zipIdx_iff_le_and_getElem?_sub.1 he
  refine ⟨hle, ?_⟩
  simp only [placed, List.getElem?_zipIdx, hget, Option.map_some, Option.some.injEq, Prod.mk.injEq,
    true_and]
  omega

/-! Filling a list changes no other one, and makes room for new ones. -/

section Fill

variable {lists : List (List Sibling)} {list : List Sibling} {p : TypeName} {i j : Nat}

theorem length_fill :
    (x.fill lists p i).length = lists.length + (x.placed lists.length p).length := by
  simp [fill]

theorem fill_other (hij : i ≠ j) (hj : lists[j]? = some list) :
    (x.fill lists p i)[j]? = some list := by
  obtain ⟨hlt, hget⟩ := List.getElem?_eq_some_iff.1 hj
  simp [fill, List.getElem?_append_left, hlt, hij, hget]

theorem fill_self (hi : lists[i]? = some list) :
    (x.fill lists p i)[i]? = some (list ++ (x.placed lists.length p).map x.sibling) := by
  obtain ⟨hlt, hget⟩ := List.getElem?_eq_some_iff.1 hi
  simp [fill, List.getElem?_append_left, hlt, hget]

theorem fill_new {e : TypeName × Nat} (he : e ∈ x.placed lists.length p) :
    (x.fill lists p i)[e.2]? = some [] := by
  obtain ⟨hle, hget⟩ := getElem?_of_mem_placed he
  rw [fill, List.getElem?_append_right (by simpa using hle), List.length_modify,
    List.getElem?_map, hget]
  rfl

end Fill

theorem deterministic_takes : Deterministic x.Takes := by
  intro a t a' u a'' h h'
  cases h
  cases h'
  exact ⟨rfl, rfl⟩

theorem exists_takes {a : Assembly} (ha : a.stack ≠ []) : ∃ p a', x.Takes a p a' := by
  obtain ⟨stack, lists⟩ := a
  cases stack with
  | nil => exact absurd rfl ha
  | cons e stack => exact ⟨_, _, .mk⟩

theorem not_takes {a : Assembly} (ha : a.stack = []) (p : TypeName) (a' : Assembly) :
    ¬ x.Takes a p a' := by
  intro h
  cases h
  cases ha

/-! ## §2 What the loop keeps -/

/-- Whatever was found was found through one other type, and the root through none. -/
structure Rooted (x : Exploration) : Prop where
  unique : ∀ {t p q}, (t, p) ∈ x.parents → (t, q) ∈ x.parents → p = q
  root : ∀ {p}, (x.root, p) ∉ x.parents

/-- The tree after the types in `taken` have been taken. The list at each place is that of the type
    in `owners` at this place. -/
structure Assembled (x : Exploration) (taken owners : List TypeName) (a : Assembly) : Prop where
  /-- Every list has an owner. -/
  room : a.lists.length = owners.length
  /-- No type owns two lists. -/
  nodup : owners.Nodup
  /-- The owners are the types taken and those still stacked. -/
  perm : owners.Perm (taken ++ a.stack.map Prod.fst)
  /-- The lists of the types still stacked are empty. -/
  stacked : ∀ e ∈ a.stack, owners[e.2]? = some e.1 ∧ a.lists[e.2]? = some []
  /-- The list of a type taken has the entries of the types found through it, which own the lists at
      the places told in it. -/
  filled : ∀ p ∈ taken, ∃ i n : Nat, owners[i]? = some p ∧
    a.lists[i]? = some ((x.placed n p).map x.sibling) ∧
    ∀ e ∈ x.placed n p, owners[e.2]? = some e.1
  /-- The first list is that of the root. -/
  root : owners[0]? = some x.root
  /-- Every other type was stacked with the one through which it was found. -/
  through : ∀ t ∈ owners, t = x.root ∨ ∃ p ∈ taken, (t, p) ∈ x.parents

theorem assembled_start (x : Exploration) : x.Assembled [] [x.root] (.start x.root) where
  room := rfl
  nodup := List.nodup_singleton _
  perm := .refl _
  stacked e he := by
    cases List.mem_singleton.1 he
    exact ⟨rfl, rfl⟩
  filled p hp := by simp at hp
  root := rfl
  through t ht := .inl (List.mem_singleton.1 ht)

namespace Assembled

variable {taken owners : List TypeName} {a a' : Assembly} {p : TypeName}

/-- The types with places are owners once their lists are there. -/
theorem owner_of_mem_placed {owners : List TypeName} {n : Nat} {p : TypeName}
    {e : TypeName × Nat} (hn : n = owners.length) (he : e ∈ x.placed n p) :
    (owners ++ (x.placed n p).map Prod.fst)[e.2]? = some e.1 := by
  subst hn
  obtain ⟨hle, hget⟩ := getElem?_of_mem_placed he
  simp [List.getElem?_append_right hle, hget]

/-- A type that is taken has not been taken before, and is not stacked twice. -/
theorem not_mem_of_stack {i : Nat} {stack : List (TypeName × Nat)} {lists : List (List Sibling)}
    (h : x.Assembled taken owners ⟨(p, i) :: stack, lists⟩) :
    p ∉ taken ∧ p ∉ stack.map Prod.fst := by
  have hnodup : (taken ++ p :: stack.map Prod.fst).Nodup := h.perm.nodup_iff.1 h.nodup
  simp only [List.nodup_append, List.nodup_cons] at hnodup
  obtain ⟨-, ⟨hstack, -⟩, hdisjoint⟩ := hnodup
  exact ⟨fun hp => hdisjoint p hp p List.mem_cons_self rfl, hstack⟩

/-- The types found through a type that is taken have not been stacked before. -/
theorem nodup_append_placed {i : Nat} {stack : List (TypeName × Nat)}
    {lists : List (List Sibling)} (hx : x.Rooted)
    (h : x.Assembled taken owners ⟨(p, i) :: stack, lists⟩) (n : Nat) :
    (owners ++ (x.placed n p).map Prod.fst).Nodup := by
  rw [map_fst_placed]
  apply h.nodup.append (OrdSet.nodup_toList _)
  intro t hold hnew
  have htp : (t, p) ∈ x.parents := mem_foundThrough_iff.1 hnew
  rcases h.through t hold with rfl | ⟨q, hq, htq⟩
  · exact hx.root htp
  · -- it was found through `p`, so it was stacked with `p` and not before
    cases hx.unique htp htq
    exact h.not_mem_of_stack.1 hq

/-- Taking a type keeps the tree in order. -/
theorem takes (hx : x.Rooted) (h : x.Assembled taken owners a) (htakes : x.Takes a p a') :
    ∃ owners', x.Assembled (taken ++ [p]) owners' a' := by
  cases htakes with
  | @mk p i stack lists =>
  have hroom : lists.length = owners.length := h.room
  obtain ⟨hi, hempty⟩ := h.stacked (p, i) List.mem_cons_self
  -- what is at a place stays there, unless it is the place of `p`
  have hkept : ∀ {j : Nat} {q : TypeName} {list : List Sibling}, q ≠ p →
      owners[j]? = some q → lists[j]? = some list → (x.fill lists p i)[j]? = some list := by
    intro j q list hne hj hlist
    apply fill_other _ hlist
    intro hij
    rw [← hij, hi] at hj
    exact hne (Option.some.inj hj).symm
  have howner : ∀ {j : Nat} {q : TypeName}, owners[j]? = some q →
      (owners ++ (x.placed lists.length p).map Prod.fst)[j]? = some q := by
    intro j q hj
    rw [List.getElem?_append_left (List.getElem?_eq_some_iff.1 hj).1, hj]
  refine ⟨owners ++ (x.placed lists.length p).map Prod.fst,
    { room := ?room, nodup := h.nodup_append_placed hx _, perm := ?perm, stacked := ?stacked,
      filled := ?filled, root := howner h.root, through := ?through }⟩
  case room => simp [length_fill, hroom]
  case perm =>
    apply List.perm_iff_count.2
    intro t
    have hcount := h.perm.count_eq t
    simp only [List.map_cons, List.count_append, List.count_cons, List.map_append,
      List.map_reverse, List.count_reverse, List.count_nil] at hcount ⊢
    omega
  case stacked =>
    intro e he
    rcases List.mem_append.1 he with he | he
    · -- stacked now, with a new list
      have he := List.mem_reverse.1 he
      exact ⟨owner_of_mem_placed hroom he, fill_new he⟩
    · obtain ⟨hj, hlist⟩ := h.stacked e (List.mem_cons_of_mem _ he)
      refine ⟨howner hj, hkept (fun heq => ?_) hj hlist⟩
      exact h.not_mem_of_stack.2 (heq ▸ List.mem_map_of_mem he)
  case filled =>
    intro q hq
    rcases List.mem_append.1 hq with hq | hq
    · obtain ⟨j, n, hj, hlist, hplaces⟩ := h.filled q hq
      refine ⟨j, n, howner hj, hkept (fun heq => ?_) hj hlist, fun e he => howner (hplaces e he)⟩
      exact h.not_mem_of_stack.1 (heq ▸ hq)
    · -- the list of `p` was empty before
      cases List.mem_singleton.1 hq
      exact ⟨i, lists.length, howner hi, fill_self hempty,
        fun e he => owner_of_mem_placed hroom he⟩
  case through =>
    intro t ht
    rcases List.mem_append.1 ht with ht | ht
    · rcases h.through t ht with rfl | ⟨q, hq, htq⟩
      · exact .inl rfl
      · exact .inr ⟨q, List.mem_append_left _ hq, htq⟩
    · rw [map_fst_placed] at ht
      exact .inr ⟨p, List.mem_append_right _ List.mem_cons_self, mem_foundThrough_iff.1 ht⟩

/-- The types found through a type that has been taken are owners. -/
theorem mem_owners (h : x.Assembled taken owners a) {t : TypeName} (hp : p ∈ taken)
    (ht : (t, p) ∈ x.parents) : t ∈ owners := by
  obtain ⟨-, n, -, -, hplaces⟩ := h.filled p hp
  have hplaced : t ∈ (x.placed n p).map Prod.fst := by
    rw [map_fst_placed]
    exact mem_foundThrough_iff.2 ht
  obtain ⟨e, he, rfl⟩ := List.mem_map.1 hplaced
  exact List.mem_of_getElem? (hplaces e he)

/-- The loop goes on to its end. It takes no type twice, and all of them are among the types found,
    so there are not more turns than these. -/
theorem exists_turns (hx : x.Rooted) {found : List TypeName} (hroot : x.root ∈ found)
    (hfound : ∀ t p, (t, p) ∈ x.parents → t ∈ found) (h : x.Assembled taken owners a) :
    ∃ rest a' owners', Turns x.Takes a rest a' ∧ a'.stack = [] ∧
      x.Assembled (taken ++ rest) owners' a' := by
  obtain ⟨n, hn⟩ : ∃ n, found.length ≤ taken.length + n := ⟨found.length, by omega⟩
  induction n generalizing taken owners a with
  | zero =>
    -- as many types as were found have been taken, so none is stacked
    have hle : owners.length ≤ found.length := by
      apply h.nodup.length_le_of_subset
      intro t ht
      rcases h.through t ht with rfl | ⟨p, -, htp⟩
      · exact hroot
      · exact hfound t p htp
    have hlength := h.perm.length_eq
    simp only [List.length_append, List.length_map] at hlength
    exact ⟨[], a, owners, .stop a, List.eq_nil_of_length_eq_zero (by omega), by simpa using h⟩
  | succ n ih =>
    by_cases hstack : a.stack = []
    · exact ⟨[], a, owners, .stop a, hstack, by simpa using h⟩
    · obtain ⟨p, a', htakes⟩ := exists_takes hstack
      obtain ⟨owners', h'⟩ := h.takes hx htakes
      have hless : found.length ≤ (taken ++ [p]).length + n := by
        simp only [List.length_append, List.length_cons, List.length_nil]
        omega
      obtain ⟨rest, a'', owners'', hturns, hend, h''⟩ := ih h' hless
      exact ⟨p :: rest, a'', owners'', .go htakes hturns, hend, by simpa using h''⟩

/-- When no type is stacked any more, the owners are the types taken. -/
theorem owners_perm (h : x.Assembled taken owners a) (hend : a.stack = []) :
    owners.Perm taken := by
  simpa [hend] using h.perm

/-- When no type is stacked any more, the list of every owner is filled. -/
theorem filled_of_owner (h : x.Assembled taken owners a) (hend : a.stack = []) {i : Nat}
    (hi : owners[i]? = some p) :
    ∃ n, a.lists[i]? = some ((x.placed n p).map x.sibling) ∧
      ∀ e ∈ x.placed n p, owners[e.2]? = some e.1 := by
  have htaken : p ∈ taken := (h.owners_perm hend).mem_iff.1 (List.mem_of_getElem? hi)
  obtain ⟨j, n, hj, hlist, hplaces⟩ := h.filled p htaken
  -- no type owns two lists
  have hij : i = j :=
    (List.getElem?_inj (List.getElem?_eq_some_iff.1 hi).1 h.nodup).1 (hi.trans hj.symm)
  subst hij
  exact ⟨n, hlist, hplaces⟩

end Assembled

/-! ## §3 The tree put together -/

/-- Entries read as trees if the lists at their places do. -/
theorem reads_map {lists : List (List Sibling)} {under : TypeName → List ClosureEntry}
    {es : List (TypeName × Nat)}
    (hes : ∀ e ∈ es, ∃ list, lists[e.2]? = some list ∧ Assembly.Reads lists list (under e.1)) :
    Assembly.Reads lists (es.map x.sibling) ((es.map Prod.fst).map fun t =>
      .node t (x.depthOf t) (x.adjacency.expands t) (t ∈ x.unresolved) (under t)) := by
  induction es with
  | nil => exact .nil
  | cons e es ih =>
    obtain ⟨list, hlist, hreads⟩ := hes e List.mem_cons_self
    exact .cons (s := x.sibling e) hlist hreads
      (ih fun e' he' => hes e' (List.mem_cons_of_mem e he'))

end Exploration

namespace Walk

namespace Orderly

variable {refs : Refs} {root : TypeName} {bound : Bound} {w : Walk}

/-- What a finished walk found hangs together. -/
theorem rooted (h : Finished refs root bound w) : (w.exploration root bound).Rooted where
  unique := h.parent_unique
  root {p} hp := by
    -- the root would be found further away than it is
    obtain ⟨k, -, -, -, hdepth, -⟩ := h.parent root p hp
    cases h.depth_unique hdepth h.root_mem_depths

variable {taken owners : List TypeName} {a : Assembly}

/-- When no type is stacked any more, just the types found have been taken. -/
theorem taken_perm (h : Finished refs root bound w)
    (ha : (w.exploration root bound).Assembled taken owners a) (hend : a.stack = []) :
    taken.Perm (w.depths.map Prod.fst) := by
  have hperm := ha.owners_perm hend
  apply (List.perm_ext_iff_of_nodup (hperm.nodup_iff.1 ha.nodup) h.distinct).2
  intro t
  have hdepths : t ∈ w.depths.map Prod.fst ↔ ∃ k, (t, k) ∈ w.depths := by simp
  rw [hdepths, ← hperm.mem_iff]
  apply Iff.intro
  · intro ht
    rcases ha.through t ht with rfl | ⟨p, -, htp⟩
    · exact ⟨0, h.root_mem_depths⟩
    · obtain ⟨k, -, -, -, hdepth, -⟩ := h.parent t p htp
      exact ⟨k + 1, hdepth⟩
  · intro ht
    -- along the types through which it was found, from the root on
    have hunder : w.FoundUnder root t := h.foundUnder_root_iff.2 ht
    clear ht hdepths
    induction hunder with
    | refl => exact List.mem_of_getElem? ha.root
    | tail _ hp ih => exact ha.mem_owners (hperm.mem_iff.1 ih) hp

/-- When no type is stacked any more, the list of a type reads as the entries under it, with room
    for all distances that occur. -/
theorem reads (h : Finished refs root bound w)
    (ha : (w.exploration root bound).Assembled taken owners a) (hend : a.stack = [])
    {p : TypeName} {k i height : Nat} (hp : (p, k) ∈ w.depths)
    (hheight : ∀ e ∈ w.depths, e.2 ≤ k + height) (hi : owners[i]? = some p) :
    ∃ list, a.lists[i]? = some list ∧
      Assembly.Reads a.lists list ((w.exploration root bound).entriesUnder height p) := by
  induction height generalizing p k i with
  | zero =>
    -- no type is further away than `p`, so none was found through it
    have hnone := h.entriesUnder_eq hp hheight
    rw [Exploration.entriesUnder, eq_comm, List.map_eq_nil_iff] at hnone
    obtain ⟨n, hlist, -⟩ := ha.filled_of_owner hend hi
    have hplaced : (w.exploration root bound).placed n p = [] := by
      rw [← List.map_eq_nil_iff, Exploration.map_fst_placed, hnone]
    rw [hplaced] at hlist
    exact ⟨[], hlist, .nil⟩
  | succ height ih =>
    obtain ⟨n, hlist, hplaces⟩ := ha.filled_of_owner hend hi
    refine ⟨_, hlist, ?_⟩
    rw [Exploration.entriesUnder, ← Exploration.map_fst_placed n]
    apply Exploration.reads_map
    intro e he
    have hfound : e.1 ∈ ((w.exploration root bound).foundThrough p).toList := by
      rw [← Exploration.map_fst_placed n]
      exact List.mem_map_of_mem he
    have hdepth : (e.1, k + 1) ∈ w.depths :=
      h.depth_of_mem_parents (Exploration.mem_foundThrough_iff.1 hfound) hp
    refine ih hdepth ?_ (hplaces e he)
    intro f hf
    have hle := hheight f hf
    omega

/-- Putting the tree of a finished walk together comes to an end, after each type found has been
    taken once, and the list of the root then reads as the entries of the tree. -/
theorem exists_assembly (h : Finished refs root bound w) :
    ∃ taken a top, EndsAfter (w.exploration root bound).Takes (.start root) taken a ∧
      a.stack = [] ∧ taken.Perm (w.depths.map Prod.fst) ∧ a.lists[0]? = some top ∧
      Assembly.Reads a.lists top (w.exploration root bound).entries := by
  have hroot : root ∈ w.depths.map Prod.fst := List.mem_map_of_mem h.root_mem_depths
  have hfound : ∀ t p, (t, p) ∈ w.parents → t ∈ w.depths.map Prod.fst := by
    intro t p hp
    obtain ⟨k, -, -, -, hdepth, -⟩ := h.parent t p hp
    exact List.mem_map_of_mem hdepth
  obtain ⟨taken, a, owners, hturns, hend, ha⟩ :=
    (Exploration.assembled_start (w.exploration root bound)).exists_turns h.rooted hroot hfound
  rw [List.nil_append] at ha
  have hheight : ∀ e ∈ w.depths, e.2 ≤ 0 + w.parents.length := by
    intro e he
    rw [Nat.zero_add]
    exact h.depth_le_length_parents he
  obtain ⟨top, htop, hreads⟩ := h.reads ha hend h.root_mem_depths hheight ha.root
  exact ⟨taken, a, top,
    hturns.endsAfter Exploration.deterministic_takes (Exploration.not_takes hend), hend,
    h.taken_perm ha hend, htop, hreads⟩

end Orderly

end Walk

end TypeAtlas
