import TypeAtlas.Proofs.Closure.Levels
import TypeAtlas.Proofs.Closure.Tree
import TypeAtlas.Proofs.Closure.ShortestPaths
import TypeAtlas.Proofs.Report.Tables

/-!
# Spanning trees

The tree of a closure holds every type of it once. Each type stands under the one through which it
was found, as many levels down as it is far away from the root. The JSON form of the tree can be
read back, but there is none if a type is further away than the call stack has room for.

Main statement: `TypeIndex.closureTree_spans`.
-/

namespace TypeAtlas

/-! ## §1 Lists of entries -/

namespace ClosureEntry

-- The parts of an entry.

def type : ClosureEntry → TypeName
  | .node t _ _ _ _ => t

def depth : ClosureEntry → Nat
  | .node _ k _ _ _ => k

def expanded : ClosureEntry → Bool
  | .node _ _ b _ _ => b

def unresolved : ClosureEntry → Bool
  | .node _ _ _ b _ => b

def children : ClosureEntry → List ClosureEntry
  | .node _ _ _ _ es => es

mutual

/-- The types of a tree, each before those that stand under it. -/
def types : ClosureEntry → List TypeName
  | .node t _ _ _ children => t :: typesOf children

/-- The types of a list of trees, one tree after the other. -/
def typesOf : List ClosureEntry → List TypeName
  | [] => []
  | e :: rest => types e ++ typesOf rest

end

mutual

theorem length_types (e : ClosureEntry) : e.types.length = e.size := by
  cases e with
  | node t depth expanded unresolved children =>
    rw [types, size, List.length_cons, length_typesOf children, Nat.add_comm]

theorem length_typesOf (es : List ClosureEntry) : (typesOf es).length = sizes es := by
  cases es with
  | nil => rfl
  | cons e rest =>
    rw [typesOf, sizes, List.length_append, length_types e, length_typesOf rest]

end

theorem typesOf_map {α : Type} (f : α → ClosureEntry) (as : List α) :
    typesOf (as.map f) = as.flatMap fun a => (f a).types := by
  induction as with
  | nil => rfl
  | cons a as ih => rw [List.map_cons, typesOf, ih, List.flatMap_cons]

end ClosureEntry

namespace ClosureTree

/-- The lists of entries in a tree, with the type under which they stand and the nesting level of
    that type: the top-level list stands under the target, at level zero, and the children of an
    entry under its type. -/
inductive Lists (c : ClosureTree) : TypeName → Nat → List ClosureEntry → Prop where
  | top : Lists c c.target 0 c.entries
  | under {parent : TypeName} {level : Nat} {entries : List ClosureEntry} {entry : ClosureEntry} :
      Lists c parent level entries → entry ∈ entries →
      Lists c entry.type (level + 1) entry.children

/-- What an entry at a nesting level tells, in the tree `c` of the exploration `e` to the depth `d`
    over the given references. -/
structure Tells (refs : Refs) (d : Int) (e : Exploration) (c : ClosureTree) (parent : TypeName)
    (level : Nat) (entry : ClosureEntry) : Prop where
  /-- The depth of an entry is its nesting level, and the distance of its type from the target. -/
  depth : entry.depth = level
  distance : refs.IsDistance c.target level entry.type
  /-- Its type is a direct reference of the one under which it stands. -/
  referenced : refs.Leads parent entry.type
  /-- Only the entries of expanded types have children. -/
  expanded : entry.expanded = true ↔ e.adjacency.expands entry.type = true
  leaf : entry.expanded = false → entry.children = []
  unresolved : entry.unresolved = true ↔ entry.type ∈ c.unresolved
  /-- No entry is expanded and unresolved, and those one reference beyond the depth are neither. -/
  not_both : ¬ (entry.expanded = true ∧ entry.unresolved = true)
  neither : (entry.expanded = false ∧ entry.unresolved = false) ↔
    0 ≤ d ∧ (entry.depth : Int) = d + 1

/-- The tree `c` spans what the exploration `e` to the depth `d` found over the given references. -/
structure Spans (refs : Refs) (d : Int) (e : Exploration) (c : ClosureTree) : Prop where
  /-- Every type reached has one entry, and there are no other entries. -/
  types_once : (ClosureEntry.typesOf c.entries).Perm c.types.toList
  total : ClosureEntry.sizes c.entries = c.types.size
  /-- The entries in a list are those of the types found through the one under which it stands, in
      strictly ascending order of their names. -/
  ascending : ∀ {parent level entries}, c.Lists parent level entries →
    Ascending (entries.map ClosureEntry.type)
  found_through : ∀ {parent level entries}, c.Lists parent level entries →
    ∀ t, t ∈ entries.map ClosureEntry.type ↔ (t, parent) ∈ e.parents
  /-- A type was found through the first one expanded that references it. -/
  first_through : ∀ t parent, (t, parent) ∈ e.parents ↔ t ≠ c.target ∧
    ∃ rs, (e.adjacency.find? fun a => decide (t ∈ a.2)) = some (parent, rs)
  entry : ∀ {parent level entries}, c.Lists parent level entries →
    ∀ entry ∈ entries, Tells refs d e c parent (level + 1) entry

end ClosureTree

/-! ## §2 What stands under a type -/

namespace Walk

/-- The type `u` is `t`, or was found through `t`, directly or through types between them. -/
def FoundUnder (w : Walk) : TypeName → TypeName → Prop :=
  Relation.ReflTransGen fun t u => (u, t) ∈ w.parents

namespace Orderly

variable {refs : Refs} {root : TypeName} {bound : Bound} {w : Walk}

/-- The type through which another one was found is unique. -/
theorem parent_unique (h : Finished refs root bound w) {t p q : TypeName}
    (hp : (t, p) ∈ w.parents) (hq : (t, q) ∈ w.parents) : p = q := by
  have hinj := List.inj_on_of_nodup_map h.nodup_parents hp hq rfl
  exact congrArg Prod.snd hinj

/-- A type other than the root was found through the first one expanded that references it. -/
theorem mem_parents_iff (h : Finished refs root bound w) {t p : TypeName} :
    (t, p) ∈ w.parents ↔
      t ≠ root ∧ ∃ rs, (w.adjacency.find? fun a => decide (t ∈ a.2)) = some (p, rs) := by
  apply Iff.intro
  · intro hp
    obtain ⟨k, rs, -, -, -, hfind⟩ := h.parent t p hp
    have ht := h.mem_parents_iff_reachable.1 (List.mem_map_of_mem hp)
    exact ⟨(mem_reachable_iff.1 ht).1, rs, hfind⟩
  · intro hp
    obtain ⟨hne, rs, hfind⟩ := hp
    have ht : t ∈ rs := by simpa using List.find?_some hfind
    -- it has been found, and not as the root, so through some type
    obtain ⟨k, hk⟩ := h.found_of_mem_adjacency (List.mem_of_find?_eq_some hfind) ht
    rcases h.eq_root_or_leads hk with ⟨heq, -⟩ | ⟨q, hq⟩
    · exact absurd heq hne
    · obtain ⟨-, rs', -, -, -, hfirst⟩ := h.parent t q hq
      cases hfind.symm.trans hfirst
      exact hq

/-- What was found under another type is further away. -/
theorem lt_of_foundUnder (h : Finished refs root bound w) {t u : TypeName} {j k : Nat}
    (hu : w.FoundUnder t u) (hne : t ≠ u) (hj : (t, j) ∈ w.depths) (hk : (u, k) ∈ w.depths) :
    j < k := by
  induction hu generalizing k with
  | refl => exact absurd rfl hne
  | @tail v u _ hvu ih =>
    obtain ⟨i, -, hi, -, hdepth, -⟩ := h.parent u v hvu
    cases h.depth_unique hk hdepth
    by_cases htv : t = v
    · subst htv
      cases h.depth_unique hi hj
      exact Nat.lt_succ_self j
    · exact Nat.lt_succ_of_lt (ih htv hi)

/-- Two types at the same distance under both of which a type was found are the same. -/
theorem eq_of_foundUnder (h : Finished refs root bound w) {t u v : TypeName} {k : Nat}
    (hu : (u, k) ∈ w.depths) (hv : (v, k) ∈ w.depths) (hut : w.FoundUnder u t)
    (hvt : w.FoundUnder v t) : u = v := by
  induction hut with
  | refl =>
    by_contra hne
    exact Nat.lt_irrefl k (h.lt_of_foundUnder hvt (Ne.symm hne) hv hu)
  | @tail s t hus hst ih =>
    rcases Relation.ReflTransGen.cases_tail hvt with rfl | ⟨s', hvs, hst'⟩
    · by_contra hne
      exact Nat.lt_irrefl k (h.lt_of_foundUnder (hus.tail hst) hne hu hv)
    · -- both were found through the same type last
      cases h.parent_unique hst hst'
      exact ih hvs

/-- Everything found was found under the root. -/
theorem foundUnder_root_iff (h : Finished refs root bound w) {t : TypeName} :
    w.FoundUnder root t ↔ ∃ k, (t, k) ∈ w.depths := by
  apply Iff.intro
  · intro ht
    cases ht with
    | refl => exact ⟨0, h.root_mem_depths⟩
    | tail _ hp =>
      obtain ⟨k, -, -, -, hdepth, -⟩ := h.parent _ _ hp
      exact ⟨k + 1, hdepth⟩
  · intro ht
    obtain ⟨k, hk⟩ := ht
    induction k generalizing t with
    | zero =>
      cases h.reachesIn hk
      exact .refl
    | succ k ih =>
      -- found through a type that is one reference nearer
      rcases h.eq_root_or_leads hk with ⟨-, hzero⟩ | ⟨p, hp⟩
      · cases hzero
      · obtain ⟨j, -, hj, -, hdepth, -⟩ := h.parent t p hp
        cases h.depth_unique hk hdepth
        exact (ih hj).tail hp

/-! ## §3 The tree of a finished walk -/

/-- A type and the trees under it, with room for all distances that occur, hold what was found under
    the type. -/
theorem mem_cons_typesOf_iff (h : Finished refs root bound w) {p t : TypeName} {k height : Nat}
    (hp : (p, k) ∈ w.depths) (hheight : ∀ e ∈ w.depths, e.2 ≤ k + height) :
    t ∈ p :: ClosureEntry.typesOf ((w.exploration root bound).entriesUnder height p) ↔
      w.FoundUnder p t := by
  rw [FoundUnder, Relation.ReflTransGen.cases_head_iff, List.mem_cons, eq_comm]
  apply or_congr_right
  induction height generalizing p k with
  | zero =>
    -- nothing is further away than `p`, so nothing was found through it
    apply iff_of_false List.not_mem_nil
    intro ht
    obtain ⟨u, hu, -⟩ := ht
    exact absurd (hheight _ (h.depth_of_mem_parents hu hp)) (Nat.not_succ_le_self k)
  | succ height ih =>
    rw [h.entriesUnder_eq hp hheight, ClosureEntry.typesOf_map, List.mem_flatMap]
    apply exists_congr
    intro u
    rw [OrdSet.mem_toList, Exploration.mem_foundThrough_iff]
    apply and_congr_right
    intro hu
    have hroom : ∀ e ∈ w.depths, e.2 ≤ (k + 1) + height := fun e he => by
      have hle := hheight e he
      omega
    rw [ClosureEntry.types, List.mem_cons, Nat.add_sub_cancel,
      ih (h.depth_of_mem_parents hu hp) hroom, Relation.ReflTransGen.cases_head_iff, eq_comm]

/-- Neither holds a type twice. -/
theorem nodup_cons_typesOf (h : Finished refs root bound w) {p : TypeName} {k height : Nat}
    (hp : (p, k) ∈ w.depths) (hheight : ∀ e ∈ w.depths, e.2 ≤ k + height) :
    (p :: ClosureEntry.typesOf ((w.exploration root bound).entriesUnder height p)).Nodup := by
  induction height generalizing p k with
  | zero => exact List.nodup_singleton p
  | succ height ih =>
    have hroom : ∀ e ∈ w.depths, e.2 ≤ (k + 1) + height := fun e he => by
      have hle := hheight e he
      omega
    have hchild : ∀ u ∈ ((w.exploration root bound).foundThrough p).toList,
        (u, k + 1) ∈ w.depths := fun u hu =>
      h.depth_of_mem_parents (Exploration.mem_foundThrough_iff.1 hu) hp
    rw [h.entriesUnder_eq hp hheight, ClosureEntry.typesOf_map]
    simp only [ClosureEntry.types, Nat.add_sub_cancel]
    rw [List.nodup_cons, List.nodup_flatMap]
    refine ⟨?_, fun u hu => ih (hchild u hu) hroom, ?_⟩
    · -- what stands under `p` is further away than `p`
      intro hmem
      obtain ⟨u, hu, hup⟩ := List.mem_flatMap.1 hmem
      have hup := (h.mem_cons_typesOf_iff (hchild u hu) hroom).1 hup
      by_cases heq : u = p
      · subst heq
        exact absurd (h.depth_unique (hchild u hu) hp) (Nat.succ_ne_self k)
      · exact absurd (h.lt_of_foundUnder hup heq (hchild u hu) hp) (by omega)
    · -- the trees of two types found through `p` have nothing in common
      apply List.Nodup.pairwise_of_forall_ne (OrdSet.nodup_toList _)
      intro u hu v hv hne t hut hvt
      exact hne (h.eq_of_foundUnder (hchild u hu) (hchild v hv)
        ((h.mem_cons_typesOf_iff (hchild u hu) hroom).1 hut)
        ((h.mem_cons_typesOf_iff (hchild v hv) hroom).1 hvt))

/-- A list of entries stands under a type that was found at its nesting level, and holds the trees
    under it, with room for all distances that occur. -/
theorem exists_height_of_lists (h : Finished refs root bound w) {p : TypeName} {level : Nat}
    {entries : List ClosureEntry}
    (hlists : (ClosureTree.ofExploration (w.exploration root bound)).Lists p level entries) :
    (p, level) ∈ w.depths ∧ ∃ height, (∀ e ∈ w.depths, e.2 ≤ level + height) ∧
      entries = (w.exploration root bound).entriesUnder height p := by
  induction hlists with
  | top =>
    refine ⟨h.root_mem_depths, w.parents.length, ?_, rfl⟩
    intro e he
    rw [Nat.zero_add]
    exact h.depth_le_length_parents he
  | @under p level entries entry _ hentry ih =>
    obtain ⟨hp, height, hheight, rfl⟩ := ih
    rw [h.entriesUnder_eq hp hheight] at hentry
    obtain ⟨u, hu, rfl⟩ := List.mem_map.1 hentry
    have hu : (u, level + 1) ∈ w.depths :=
      h.depth_of_mem_parents (Exploration.mem_foundThrough_iff.1 hu) hp
    refine ⟨hu, height - 1, ?_, rfl⟩
    intro e he
    have hle := hheight e he
    have hone := hheight _ hu
    omega

/-- The entries in a list are those of the types found through the one under which it stands. -/
theorem entries_eq_of_lists (h : Finished refs root bound w) {p : TypeName} {level : Nat}
    {entries : List ClosureEntry}
    (hlists : (ClosureTree.ofExploration (w.exploration root bound)).Lists p level entries) :
    (p, level) ∈ w.depths ∧ ∃ height, entries =
      ((w.exploration root bound).foundThrough p).toList.map fun u =>
        .node u (level + 1) (w.adjacency.expands u) (u ∈ w.unresolved)
          ((w.exploration root bound).entriesUnder height u) := by
  obtain ⟨hp, height, hheight, rfl⟩ := h.exists_height_of_lists hlists
  exact ⟨hp, height - 1, h.entriesUnder_eq hp hheight⟩

theorem map_type_of_lists (h : Finished refs root bound w) {p : TypeName} {level : Nat}
    {entries : List ClosureEntry}
    (hlists : (ClosureTree.ofExploration (w.exploration root bound)).Lists p level entries) :
    entries.map ClosureEntry.type = ((w.exploration root bound).foundThrough p).toList := by
  obtain ⟨-, height, rfl⟩ := h.entries_eq_of_lists hlists
  rw [List.map_map]
  exact List.map_id _

/-- Nothing stands under a type that was not expanded. -/
theorem entriesUnder_eq_nil_of_not_expands (h : Finished refs root bound w) {t : TypeName}
    (ht : w.adjacency.expands t = false) (height : Nat) :
    (w.exploration root bound).entriesUnder height t = [] := by
  cases height with
  | zero => rfl
  | succ height =>
    apply List.map_eq_nil_iff.2
    apply List.eq_nil_iff_forall_not_mem.2
    intro u hu
    obtain ⟨-, rs, hfind⟩ := h.mem_parents_iff.1 (Exploration.mem_foundThrough_iff.1 hu)
    have hexpands : w.adjacency.expands t = true :=
      List.any_eq_true.2 ⟨_, List.mem_of_find?_eq_some hfind, beq_self_eq_true t⟩
    rw [ht] at hexpands
    cases hexpands

/-- What the entry of a type found through `p` tells. -/
theorem tells (h : Finished refs root bound w) {d : Int} (hb : Bound.ofInt? d = some bound)
    {p t : TypeName} {level : Nat} (hp : (p, level) ∈ w.depths) (ht : (t, p) ∈ w.parents)
    (height : Nat) :
    ClosureTree.Tells refs d (w.exploration root bound)
      (.ofExploration (w.exploration root bound)) p (level + 1)
      (.node t (level + 1) (w.adjacency.expands t) (t ∈ w.unresolved)
        ((w.exploration root bound).entriesUnder height t)) := by
  have hdepth : (t, level + 1) ∈ w.depths := h.depth_of_mem_parents ht hp
  have hone := h.exactlyOne hb hdepth
  rw [h.isCutOff_iff hdepth] at hone
  exact
    { depth := rfl
      distance := (h.mem_depths_iff_isDistance.1 hdepth).1
      referenced := h.leads_of_mem_parents ht
      expanded := Iff.rfl
      leaf := fun hnot => h.entriesUnder_eq_nil_of_not_expands hnot height
      unresolved := decide_eq_true_iff
      not_both := by simpa [ClosureEntry.expanded, ClosureEntry.unresolved] using hone.not_both
      neither := by
        simpa [ClosureEntry.expanded, ClosureEntry.unresolved, ClosureEntry.depth] using
          hone.neither_iff }

/-- The tree of a finished walk lists each type that the walk reached, once. -/
theorem typesOf_entries_perm (h : Finished refs root bound w) :
    (ClosureEntry.typesOf (w.exploration root bound).entries).Perm
      (reachable w.adjacency root).toList := by
  have hroot : ∀ e ∈ w.depths, e.2 ≤ 0 + w.parents.length := fun e he => by
    rw [Nat.zero_add]
    exact h.depth_le_length_parents he
  have hself : root ∉ (reachable w.adjacency root).toList := fun hmem =>
    (mem_reachable_iff.1 hmem).1 rfl
  -- with the root in front, both lists hold what was found, and nothing twice
  apply List.Perm.cons_inv (a := root)
  apply (List.perm_ext_iff_of_nodup (h.nodup_cons_typesOf h.root_mem_depths hroot)
    (List.nodup_cons.2 ⟨hself, OrdSet.nodup_toList _⟩)).2
  intro t
  rw [List.mem_cons (a := t) (b := root) (l := (reachable w.adjacency root).toList),
    OrdSet.mem_toList, ← h.mem_depths_iff_reachable, ← h.foundUnder_root_iff]
  exact h.mem_cons_typesOf_iff h.root_mem_depths hroot

/-- What stands under a type has so many levels at most exactly if nothing found under the type is
    further away from it. -/
theorem levels_entriesUnder_le_iff (h : Finished refs root bound w) {p : TypeName}
    {level height room : Nat} (hp : (p, level) ∈ w.depths)
    (hheight : ∀ e ∈ w.depths, e.2 ≤ level + height) :
    ClosureEntry.levels ((w.exploration root bound).entriesUnder height p) ≤ room ↔
      ∀ t k, w.FoundUnder p t → (t, k) ∈ w.depths → k ≤ level + room := by
  induction height generalizing p level room with
  | zero =>
    -- nothing at all is further away
    refine iff_of_true (Nat.zero_le room) fun t k _ hk => ?_
    have hle := hheight _ hk
    omega
  | succ height ih =>
    have hroom : ∀ e ∈ w.depths, e.2 ≤ (level + 1) + height := fun e he => by
      have hle := hheight e he
      omega
    rw [h.entriesUnder_eq hp hheight, ClosureEntry.levels_map_le_iff]
    simp only [ClosureEntry.height, Nat.add_sub_cancel, OrdSet.mem_toList,
      Exploration.mem_foundThrough_iff]
    constructor
    · intro hlevels t k ht hk
      rcases Relation.ReflTransGen.cases_head ht with rfl | ⟨u, hu, hut⟩
      · cases h.depth_unique hk hp
        omega
      · have hle := hlevels u hu
        have hrest := (@ih _ _ (room - 1) (h.depth_of_mem_parents hu hp) hroom).1 (by omega)
          t k hut hk
        omega
    · intro hnear u hu
      have hchild := h.depth_of_mem_parents hu hp
      -- `u` itself is one reference further away, so there is room for it
      have hone := hnear u _ (.single hu) hchild
      have hrest := (@ih _ _ (room - 1) hchild hroom).2 fun t k ht hk => by
        have hle := hnear t k (ht.head hu) hk
        omega
      omega

/-- The tree of a finished walk has as many levels as its types are far away. -/
theorem levels_entries_le_iff (h : Finished refs root bound w) {room : Nat} :
    ClosureEntry.levels (w.exploration root bound).entries ≤ room ↔
      ∀ t ∈ reachable w.adjacency root, ∀ k, refs.IsDistance root k t → k ≤ room := by
  have hroot : ∀ e ∈ w.depths, e.2 ≤ 0 + w.parents.length := fun e he => by
    rw [Nat.zero_add]
    exact h.depth_le_length_parents he
  have hlevels : ClosureEntry.levels (w.exploration root bound).entries ≤ room ↔
      ∀ t k, w.FoundUnder root t → (t, k) ∈ w.depths → k ≤ 0 + room :=
    h.levels_entriesUnder_le_iff h.root_mem_depths hroot
  rw [hlevels]
  constructor
  · intro hnear t ht k hdistance
    obtain ⟨j, hj⟩ := h.mem_depths_iff_reachable.2 (.inr ht)
    have hle := hnear t j (h.foundUnder_root_iff.2 ⟨j, hj⟩) hj
    have hkj := hdistance.2 j (h.reachesIn hj)
    omega
  · intro hnear t k _ hk
    rcases h.mem_depths_iff_reachable.1 ⟨k, hk⟩ with rfl | ht
    · cases h.depth_unique hk h.root_mem_depths
      exact Nat.zero_le _
    · have hle := hnear t ht k (h.mem_depths_iff_isDistance.1 hk).1
      omega

/-- The tree of a finished walk spans what the walk found. -/
theorem spans (h : Finished refs root bound w) {d : Int} (hb : Bound.ofInt? d = some bound) :
    (ClosureTree.ofExploration (w.exploration root bound)).Spans refs d
      (w.exploration root bound) := by
  have hperm := h.typesOf_entries_perm
  refine
    { types_once := hperm, total := ?total, ascending := ?ascending
      found_through := ?found_through, first_through := fun _ _ => h.mem_parents_iff
      entry := ?entry }
  case total =>
    rw [← ClosureEntry.length_typesOf]
    exact hperm.length_eq
  case ascending =>
    intro p level entries hlists
    rw [h.map_type_of_lists hlists]
    exact OrdSet.ascending _
  case found_through =>
    intro p level entries hlists t
    rw [h.map_type_of_lists hlists, OrdSet.mem_toList]
    exact Exploration.mem_foundThrough_iff
  case entry =>
    intro p level entries hlists entry hentry
    obtain ⟨hp, height, rfl⟩ := h.entries_eq_of_lists hlists
    obtain ⟨t, ht, rfl⟩ := List.mem_map.1 hentry
    exact h.tells hb hp (Exploration.mem_foundThrough_iff.1 ht) height

end Orderly

end Walk

/-! ## §4 The JSON form of a tree -/

mutual

/-- Read the JSON form of an entry. -/
def ClosureEntry.ofJson? : Json → Option ClosureEntry
  | .obj [("depth", .int depth), ("type", .str type), ("expanded", .bool expanded),
      ("unresolved", .bool unresolved), ("children", .arr children)] =>
    (entriesOfJson? children).map fun es => .node type depth.toNat expanded unresolved es
  | _ => none

/-- Read the JSON forms of entries, one by one. -/
def entriesOfJson? : List Json → Option (List ClosureEntry)
  | [] => some []
  | v :: rest => do return (← ClosureEntry.ofJson? v) :: (← entriesOfJson? rest)

end

mutual

theorem ClosureEntry.ofJson?_fold (e : ClosureEntry) :
    ClosureEntry.ofJson? (ClosureEntry.fold entryForm e) = some e := by
  cases e with
  | node t depth expanded unresolved children =>
    rw [ClosureEntry.fold, entryForm, Json.nat, ClosureEntry.ofJson?,
      entriesOfJson?_foldAll children]
    rfl

theorem entriesOfJson?_foldAll (es : List ClosureEntry) :
    entriesOfJson? (ClosureEntry.foldAll entryForm es) = some es := by
  cases es with
  | nil => rw [ClosureEntry.foldAll, entriesOfJson?]
  | cons e rest =>
    rw [ClosureEntry.foldAll, entriesOfJson?, ClosureEntry.ofJson?_fold e,
      entriesOfJson?_foldAll rest]
    rfl

end

/-- A JSON value tells what the tree `c` of an exploration to the depth `d` holds: its target, its
    types and those unresolved, their number, and all its entries. -/
structure ClosureTree.ReadsBack (d : Int) (c : ClosureTree) (v : Json) : Prop where
  target : v.member? "target" = some (.str c.target)
  depth : v.member? "max_depth" = some (.int d)
  total : v.member? "total" = some (.nat c.types.size)
  types : v.member? "types" = some (.strs c.types.toList)
  unresolved : v.member? "unresolved" = some (.strs c.unresolved.toList)
  entries : ((v.member? "tree").bind Json.items?).bind entriesOfJson? = some c.entries

/-- The JSON form of a tree that spans an exploration tells all that the tree holds. -/
theorem ClosureTree.Spans.readsBack {refs : Refs} {d : Int} {e : Exploration} {c : ClosureTree}
    (h : c.Spans refs d e) (hd : c.bound.toInt = d) : c.ReadsBack d c.toJson where
  target := rfl
  depth := by rw [← hd]; rfl
  total := by rw [← h.total]; rfl
  types := rfl
  unresolved := rfl
  entries := entriesOfJson?_foldAll c.entries

/-! ## §5 Closure trees over an index -/

namespace TypeIndex

/-- In every session that steps lead to, the closure tree of a type that can be described spans what
    the exploration from it finds over the direct references, those that the session tells when
    asked. If the call stack has room for the levels of the tree, then there is a JSON form of it
    that tells all that the tree holds, and otherwise there is none. There is room if no type of
    the closure is further away from the root than there is room for. -/
theorem closureTree_spans (x : TypeIndex) (blind : List TypeName) (config : Config)
    {s : Session Unit} (hs : (x.context blind config).Reached s) {root : TypeName}
    (hroot : x.Describes blind root) {d : Int} (hd : -1 ≤ d) {depth : Option Int}
    (hdepth : (x.context blind config).depthOr depth = d) :
    ∃ e c s', ((x.context blind config).explore root d).run s = (.ok e, s') ∧
      ((x.context blind config).closureTree root depth).run s = (.ok c, s') ∧
      c.target = root ∧ c.types = e.types ∧ c.unresolved = e.unresolved ∧
      c.Spans (x.context blind config).refs d e ∧
      (∀ stack : CallStack, (c.Fits stack → ∃ v, c.toJson? stack = some v ∧ c.ReadsBack d v) ∧
        (¬ c.Fits stack → c.toJson? stack = none) ∧
        (c.Fits stack ↔ ∀ t ∈ c.types, ∀ n, (x.context blind config).refs.IsDistance root n t →
          n ≤ stack.counting ∧ n ≤ stack.converting)) ∧
      ∀ t rs, (x.context blind config).refs t = some rs ↔
        (((x.context blind config).directReferences t).run s).1 = .ok rs := by
  obtain ⟨b, hb⟩ := Bound.exists_ofInt?_eq_some hd
  obtain ⟨s', hrun, -⟩ := exists_run_explore hs hroot hb
  have hfinished := Context.finished_record (lawful_context x blind config) root b
  have hspans := hfinished.spans hb
  refine ⟨_, _, s', hrun, ?tree, rfl, rfl, rfl, hspans, fun stack => ⟨?told, ?untold, ?fits⟩,
    fun t rs => refs_eq_some_iff_run hs⟩
  case tree =>
    -- the tree is that of the exploration
    unfold Context.closureTree
    rw [hdepth, Asking.run_bind_of_ok hrun]
    rfl
  case told =>
    exact fun hfits =>
      ⟨_, ClosureTree.toJson?_of_fits hfits, hspans.readsBack (Bound.toInt_of_ofInt? hb)⟩
  case untold => exact ClosureTree.toJson?_of_not_fits
  case fits =>
    refine (and_congr hfinished.levels_entries_le_iff hfinished.levels_entries_le_iff).trans ?_
    exact ⟨fun h t ht n hn => ⟨h.1 t ht n hn, h.2 t ht n hn⟩,
      fun h => ⟨fun t ht n hn => (h t ht n hn).1, fun t ht n hn => (h t ht n hn).2⟩⟩

/-- The tree of the closure of `A` up to depth zero, where `B` is cut off, has a JSON form if there
    is room for one level, and none if there is no room. -/
theorem closureTree_spans_ring :
    ∃ e c s', ((ring.context ["C"] {}).explore "A" 0).run Session.fresh = (.ok e, s') ∧
      ((ring.context ["C"] {}).closureTree "A" (some 0)).run Session.fresh = (.ok c, s') ∧
      c.Spans (ring.context ["C"] {}).refs 0 e ∧
      (∃ v, c.toJson? { counting := 1, converting := 1 } = some v ∧ c.ReadsBack 0 v) ∧
      c.toJson? { counting := 1, converting := 0 } = none := by
  have hroot : ring.Describes ["C"] "A" := ⟨by decide, by decide⟩
  have hdepth : (ring.context ["C"] {}).depthOr (some 0) = 0 := rfl
  obtain ⟨e, c, s', hrun, htree, -, -, -, hspans, hjson, -⟩ :=
    closureTree_spans ring ["C"] {} ⟨[], rfl⟩ hroot (by decide) hdepth
  have hlevels : ((((ring.context ["C"] {}).closureTree "A" (some 0)).run Session.fresh).1.map
      fun c => ClosureEntry.levels c.entries).toOption = some 1 := by decide +kernel
  have htree' : ((ring.context ["C"] {}).closureTree "A" (some 0)).run Session.fresh =
      (.ok c, s') := htree
  rw [htree'] at hlevels
  have hone : ClosureEntry.levels c.entries = 1 := Option.some.inj hlevels
  refine ⟨e, c, s', hrun, htree, hspans, (hjson _).1 ⟨hone.le, hone.le⟩, (hjson _).2.1 ?_⟩
  exact fun hfits => absurd (hone.ge.trans hfits.2) (by decide)

end TypeIndex

end TypeAtlas
