import Mathlib.Data.List.Pairwise
import Mathlib.Data.List.Perm.Basic
import Mathlib.Logic.Relation
import TypeAtlas.Proofs.Json.WellFormed

/-!
# Rearranged values

The members of an object with distinct keys may stand in any order, and where a reader knows some
members of an object, there may be others. `Rearranged` is one such change somewhere in a value. A
reader does not mind it: it reads a rearranged value as well, and what it reads is alike. The
readers are taken one by one, from those of single values to those of objects with known parts.

Main statements: `Json.indifferent_anyValue` and `Json.indifferent_object`.
-/

namespace TypeAtlas

theorem Entries.has_iff {β : Type} {es : Entries β} {k : String} :
    Entries.has es k = true ↔ ∃ v, Entries.get? es k = some v := by
  rw [Entries.has, Option.isSome_iff_exists]

namespace Json

/-! ## §1 Values that are alike -/

/-- The values are equal if objects are compared by what they hold under each key. -/
inductive Alike : Json → Json → Prop where
  | refl (v : Json) : Alike v v
  | arr {vs ws : List Json} (hlength : vs.length = ws.length)
      (h : ∀ (i : Nat) v w, vs[i]? = some v → ws[i]? = some w → Alike v w) :
      Alike (.arr vs) (.arr ws)
  | obj {ms ms' : List (String × Json)}
      (hkeys : ∀ k, Entries.has ms k = true ↔ Entries.has ms' k = true)
      (h : ∀ k v w, Entries.get? ms k = some v → Entries.get? ms' k = some w → Alike v w) :
      Alike (.obj ms) (.obj ms')

theorem Alike.trans {u v w : Json} (h : Alike u v) (h' : Alike v w) : Alike u w := by
  -- what stands in the middle is found at the same position, or under the same key
  induction h generalizing w with
  | refl => exact h'
  | @arr us vs hlength h ih =>
    cases h' with
    | refl => exact .arr hlength h
    | @arr _ ws hlength' h' =>
      refine .arr (hlength.trans hlength') fun i u w hu hw => ?_
      have hi : i < vs.length := by
        rw [← hlength]
        exact (List.getElem?_eq_some_iff.1 hu).1
      exact ih i u vs[i] hu (List.getElem?_eq_getElem hi)
        (h' i vs[i] w (List.getElem?_eq_getElem hi) hw)
  | @obj ms ms' hkeys h ih =>
    cases h' with
    | refl => exact .obj hkeys h
    | @obj _ ms'' hkeys' h' =>
      refine .obj (fun k => (hkeys k).trans (hkeys' k)) fun k u w hu hw => ?_
      obtain ⟨v, hv⟩ := Entries.has_iff.1 ((hkeys k).1 (Entries.has_iff.2 ⟨u, hu⟩))
      exact ih k u v hu hv (h' k v w hv hw)

/-- Objects are alike if they hold values that are alike under the same keys. -/
theorem alike_obj_iff {ms ms' : List (String × Json)} :
    Alike (.obj ms) (.obj ms') ↔
      (∀ k, Entries.has ms k = true ↔ Entries.has ms' k = true) ∧
        ∀ k v w, Entries.get? ms k = some v → Entries.get? ms' k = some w → Alike v w := by
  constructor
  · intro h
    cases h with
    | refl =>
      refine ⟨fun k => Iff.rfl, fun k v w hv hw => ?_⟩
      cases hv.symm.trans hw
      exact .refl v
    | obj hkeys h => exact ⟨hkeys, h⟩
  · rintro ⟨hkeys, h⟩
    exact .obj hkeys h

theorem alike_of_get?_eq {ms ms' : List (String × Json)}
    (h : ∀ k, Entries.get? ms k = Entries.get? ms' k) : Alike (.obj ms) (.obj ms') := by
  refine .obj (fun k => by rw [Entries.has, Entries.has, h]) fun k v w hv hw => ?_
  rw [h, hw] at hv
  cases hv
  exact .refl v

/-- Objects stay alike when values that are alike are written into them. -/
theorem Alike.put {ms ms' : List (String × Json)} (h : Alike (.obj ms) (.obj ms')) {v v' : Json}
    (hv : Alike v v') (k : String) :
    Alike (.obj (Entries.put k v ms)) (.obj (Entries.put k v' ms')) := by
  obtain ⟨hkeys, hvalues⟩ := alike_obj_iff.1 h
  -- under the key that is written there are the new values, under any other one the old ones
  refine .obj (fun j => ?_) fun j u w hu hw => ?_
  · by_cases hj : k = j
    · simp [Entries.has, hj]
    · simpa [Entries.has, hj] using hkeys j
  · rw [Entries.get?_put] at hu hw
    by_cases hj : k = j
    · rw [if_pos hj] at hu hw
      cases hu
      cases hw
      exact hv
    · rw [if_neg hj] at hu hw
      exact hvalues j u w hu hw

/-- One of the items of an array may be replaced by one that is alike. -/
theorem Alike.item {v v' : Json} (h : Alike v v') (vs ws : List Json) :
    Alike (.arr (vs ++ v :: ws)) (.arr (vs ++ v' :: ws)) := by
  refine .arr (by simp) fun i u w hu hw => ?_
  -- before, at and behind the place of the change
  rcases Nat.lt_trichotomy i vs.length with hi | rfl | hi
  · rw [List.getElem?_append_left hi] at hu hw
    cases hu.symm.trans hw
    exact .refl u
  · rw [List.getElem?_append_right (Nat.le_refl _), Nat.sub_self, List.getElem?_cons_zero] at hu hw
    cases hu
    cases hw
    exact h
  · obtain ⟨j, rfl⟩ := Nat.exists_eq_add_of_lt hi
    rw [List.getElem?_append_right hi.le, Nat.add_assoc, Nat.add_sub_cancel_left,
      List.getElem?_cons_succ] at hu hw
    cases hu.symm.trans hw
    exact .refl u

/-! ## §2 Rearranged values -/

/-- How a reader takes a value: as it is, as an array whose items it takes all in one way, or as an
    object of whose members it knows some, each with a way to take its value. -/
inductive Shape where
  | any
  | items (item : Shape)
  | fields (known : List (String × Shape))

/-- How the items of an array are taken. -/
def Shape.item : Shape → Shape
  | .items item => item
  | _ => .any

/-- How the value of a member of an object is taken. -/
def Shape.part : Shape → Option String → Shape
  | .fields known, some key => (Entries.get? known key).getD .any
  | _, _ => .any

@[simp] theorem Shape.item_any : Shape.any.item = .any := rfl

@[simp] theorem Shape.part_any (key : Option String) : Shape.any.part key = .any := by
  cases key <;> rfl

/-- One change somewhere in a value of the given shape: the members of an object with distinct keys
    are put into another order, or an object of which some members are known gets a further member
    with another key and any value that is well formed. -/
inductive Rearranged : Shape → Node → Node → Prop where
  | permute {shape : Shape} {ms ms' : List (Option String × Node)}
      (hkeys : (ms.filterMap Prod.fst).Nodup) (h : ms.Perm ms') :
      Rearranged shape (.obj ms true) (.obj ms' true)
  | insert {known : List (String × Shape)} (ms ms' : List (Option String × Node))
      {key : Option String} {n : Node} (hkey : ∀ e ∈ known, key ≠ some e.1) (h : n.WellFormed) :
      Rearranged (.fields known) (.obj (ms ++ ms') true) (.obj (ms ++ (key, n) :: ms') true)
  | member {shape : Shape} (ms ms' : List (Option String × Node)) {key : Option String}
      {n n' : Node} (h : Rearranged (shape.part key) n n') :
      Rearranged shape (.obj (ms ++ (key, n) :: ms') true) (.obj (ms ++ (key, n') :: ms') true)
  | item {shape : Shape} (ns ns' : List Node) {n n' : Node} (h : Rearranged shape.item n n') :
      Rearranged shape (.arr (ns ++ n :: ns') true) (.arr (ns ++ n' :: ns') true)

/-- The reader does not mind rearrangement: it reads a rearranged value as well, and what it reads
    is related to what it read before. -/
def Indifferent {α : Type} (shape : Shape) (read : Reader α) (R : α → α → Prop) : Prop :=
  ∀ path n n' a, Rearranged shape n n' → read path n = .ok a →
    ∃ a', read path n' = .ok a' ∧ R a a'

theorem Indifferent.mono {α : Type} {shape : Shape} {read : Reader α} {R S : α → α → Prop}
    (h : Indifferent shape read R) (hRS : ∀ {a a'}, R a a' → S a a') :
    Indifferent shape read S := by
  intro path n n' a hn hread
  obtain ⟨a', ha', hR⟩ := h path n n' a hn hread
  exact ⟨a', ha', hRS hR⟩

/-- There is nothing to rearrange in values that are neither arrays nor objects. -/
theorem indifferent_of_scalar {α : Type} {read : Reader α}
    (harr : ∀ path ns a, read path (.arr ns true) ≠ .ok a)
    (hobj : ∀ path ms a, read path (.obj ms true) ≠ .ok a) (shape : Shape) :
    Indifferent shape read Eq := by
  intro path n n' a h hread
  -- an array has changed in one of its items, an object in one of the other ways
  cases h with
  | item => exact absurd hread (harr _ _ _)
  | _ => exact absurd hread (hobj _ _ _)

theorem indifferent_text (shape : Shape) : Indifferent shape text Eq :=
  indifferent_of_scalar (fun _ _ _ h => by cases h) (fun _ _ _ h => by cases h) shape

theorem indifferent_textOrNull (shape : Shape) : Indifferent shape textOrNull Eq :=
  indifferent_of_scalar (fun _ _ _ h => by cases h) (fun _ _ _ h => by cases h) shape

/-- A value that may be passed over may still be so when it is rearranged. -/
theorem Node.WellFormed.rearranged {n n' : Node} (hn : n.WellFormed) {shape : Shape}
    (h : Rearranged shape n n') : n'.WellFormed := by
  induction h with
  | permute _ h =>
    rw [wellFormed_obj_iff] at hn ⊢
    exact ⟨fun m hm => hn.1 m (h.mem_iff.2 hm), rfl⟩
  | insert ms ms' _ h =>
    simp only [wellFormed_obj_iff, and_true, List.forall_mem_append, List.forall_mem_cons] at hn ⊢
    exact ⟨hn.1, h, hn.2⟩
  | member ms ms' _ ih =>
    simp only [wellFormed_obj_iff, and_true, List.forall_mem_append, List.forall_mem_cons] at hn ⊢
    exact ⟨hn.1, ih hn.2.1, hn.2.2⟩
  | item ns ns' _ ih =>
    simp only [wellFormed_arr_iff, and_true, List.forall_mem_append, List.forall_mem_cons] at hn ⊢
    exact ⟨hn.1, ih hn.2.1, hn.2.2⟩

/-! ## §3 Arrays -/

section Arrays

variable {α : Type} {item : Reader α}

/-- The items of an array are read one by one. -/
theorem listFrom_middle_iff {path : Path} {ns ns' : List Node} {x : Node} {k : Nat} {as : List α} :
    listFrom item path k (ns ++ x :: ns') = .ok as ↔
      ∃ bs, listFrom item path k ns = .ok bs ∧
        ∃ b, item (.index (k + ns.length) :: path) x = .ok b ∧
          ∃ cs, listFrom item path (k + ns.length + 1) ns' = .ok cs ∧ as = bs ++ b :: cs := by
  induction ns generalizing k as with
  | nil =>
    simp only [List.nil_append, listFrom, bind_eq_ok_iff, pure_eq_ok_iff, List.length_nil]
    simp
  | cons n ns ih =>
    simp only [List.cons_append, listFrom, bind_eq_ok_iff, pure_eq_ok_iff, ih, List.length_cons]
    have hpos : k + 1 + ns.length = k + (ns.length + 1) := by omega
    rw [hpos]
    constructor
    · rintro ⟨a, ha, _, ⟨bs, hbs, b, hb, cs, hcs, rfl⟩, rfl⟩
      exact ⟨a :: bs, ⟨a, ha, bs, hbs, rfl⟩, b, hb, cs, hcs, rfl⟩
    · rintro ⟨_, ⟨a, ha, bs, hbs, rfl⟩, b, hb, cs, hcs, rfl⟩
      exact ⟨a, ha, bs ++ b :: cs, ⟨bs, hbs, b, hb, cs, hcs, rfl⟩, rfl⟩

theorem list_arr_eq_ok_iff {path : Path} {ns : List Node} {as : List α} :
    list item path (.arr ns true) = .ok as ↔ listFrom item path 0 ns = .ok as := by
  simp [list, bind_eq_ok_iff]

theorem indifferent_list {shape : Shape} (h : Indifferent shape.item item Eq) :
    Indifferent shape (list item) Eq := by
  intro path n n' as hn hread
  cases hn with
  | item ns ns' hn =>
    rw [list_arr_eq_ok_iff, listFrom_middle_iff] at hread
    obtain ⟨bs, hbs, b, hb, cs, hcs, rfl⟩ := hread
    obtain ⟨_, hb', rfl⟩ := h _ _ _ b hn hb
    exact ⟨_, list_arr_eq_ok_iff.2 (listFrom_middle_iff.2 ⟨bs, hbs, b, hb', cs, hcs, rfl⟩), rfl⟩
  | _ => cases hread

end Arrays

/-! ## §4 Objects -/

/-- How the members of an object go into partial results that are compared by `R`: it does not
    matter which of two related results they go into, nor which of two members with different keys
    goes first. -/
structure Orderly {σ : Type} (member : σ → Option String → Path → Node → Except Fault σ)
    (R : σ → σ → Prop) : Prop where
  refl (s : σ) : R s s
  trans {s t u : σ} (h : R s t) (h' : R t u) : R s u
  same {s s' t : σ} {key : Option String} {path : Path} {n : Node} (h : R s s')
    (hread : member s key path n = .ok t) : ∃ t', member s' key path n = .ok t' ∧ R t t'
  swap {s t u : σ} {key key' : Option String} {path : Path} {n n' : Node}
    (hkeys : ∀ k, key = some k → key' ≠ some k) (hread : member s key path n = .ok t)
    (hread' : member t key' path n' = .ok u) :
    ∃ t' u', member s key' path n' = .ok t' ∧ member t' key path n = .ok u' ∧ R u u'

section Objects

variable {σ : Type} {member : σ → Option String → Path → Node → Except Fault σ}
  {R : σ → σ → Prop} {path : Path}

theorem membersInto_cons_iff {s u : σ} {key : Option String} {n : Node}
    {ms : List (Option String × Node)} :
    membersInto member path s ((key, n) :: ms) = .ok u ↔
      ∃ t, member s key path n = .ok t ∧ membersInto member path t ms = .ok u := by
  rw [membersInto, bind_eq_ok_iff]

theorem membersInto_append_iff {s u : σ} {ms ms' : List (Option String × Node)} :
    membersInto member path s (ms ++ ms') = .ok u ↔
      ∃ t, membersInto member path s ms = .ok t ∧ membersInto member path t ms' = .ok u := by
  induction ms generalizing s with
  | nil => simp [membersInto]
  | cons m ms ih =>
    obtain ⟨key, n⟩ := m
    simp only [List.cons_append, membersInto_cons_iff, ih]
    constructor
    · rintro ⟨t, ht, t', ht', hu⟩
      exact ⟨t', ⟨t, ht, ht'⟩, hu⟩
    · rintro ⟨t', ⟨t, ht, ht'⟩, hu⟩
      exact ⟨t, ht, t', ht', hu⟩

theorem Orderly.membersInto (h : Orderly member R) {s s' t : σ} (hs : R s s')
    {ms : List (Option String × Node)} (hread : membersInto member path s ms = .ok t) :
    ∃ t', Json.membersInto member path s' ms = .ok t' ∧ R t t' := by
  induction ms generalizing s s' with
  | nil =>
    cases hread
    exact ⟨s', rfl, hs⟩
  | cons m ms ih =>
    obtain ⟨key, n⟩ := m
    obtain ⟨u, hu, hread⟩ := membersInto_cons_iff.1 hread
    obtain ⟨u', hu', hR⟩ := h.same hs hu
    obtain ⟨t', ht', ht⟩ := ih hR hread
    exact ⟨t', membersInto_cons_iff.2 ⟨u', hu', ht'⟩, ht⟩

/-- Members with distinct keys may stand in any order. -/
theorem Orderly.membersInto_perm (h : Orderly member R) {ms ms' : List (Option String × Node)}
    (hms : ms.Perm ms') (hkeys : (ms.filterMap Prod.fst).Nodup) {s t : σ}
    (hread : Json.membersInto member path s ms = .ok t) :
    ∃ t', Json.membersInto member path s ms' = .ok t' ∧ R t t' := by
  -- by induction on the permutation: a swap leads to a related result, and the members behind it
  -- go into that one as well
  induction hms generalizing s t with
  | nil => exact ⟨t, hread, h.refl t⟩
  | cons m _ ih =>
    obtain ⟨key, n⟩ := m
    obtain ⟨u, hu, hread⟩ := membersInto_cons_iff.1 hread
    have htail : (List.filterMap Prod.fst _).Nodup :=
      hkeys.sublist (List.Sublist.filterMap _ (List.sublist_cons_self _ _))
    obtain ⟨t', ht', ht⟩ := ih htail hread
    exact ⟨t', membersInto_cons_iff.2 ⟨u, hu, ht'⟩, ht⟩
  | swap m m' ms =>
    obtain ⟨key, n⟩ := m
    obtain ⟨key', n'⟩ := m'
    obtain ⟨u, hu, hread⟩ := membersInto_cons_iff.1 hread
    obtain ⟨v, hv, hread⟩ := membersInto_cons_iff.1 hread
    have hne : ∀ k, key' = some k → key ≠ some k := by
      rintro k rfl rfl
      simp at hkeys
    obtain ⟨u', v', hu', hv', hR⟩ := h.swap hne hu hv
    obtain ⟨t', ht', ht⟩ := h.membersInto hR hread
    exact ⟨t', membersInto_cons_iff.2 ⟨u', hu', membersInto_cons_iff.2 ⟨v', hv', ht'⟩⟩, ht⟩
  | trans hms _ ih ih' =>
    obtain ⟨t', ht', ht⟩ := ih hkeys hread
    obtain ⟨t'', ht'', hR⟩ := ih' ((hms.filterMap Prod.fst).nodup_iff.1 hkeys) ht'
    exact ⟨t'', ht'', h.trans ht hR⟩

/-- The value of one member may be replaced by one that leads to a related result. -/
theorem Orderly.membersInto_member (h : Orderly member R) {key : Option String} {n n' : Node}
    (hmember : ∀ {s t}, member s key path n = .ok t → ∃ t', member s key path n' = .ok t' ∧ R t t')
    {ms ms' : List (Option String × Node)} {s t : σ}
    (hread : Json.membersInto member path s (ms ++ (key, n) :: ms') = .ok t) :
    ∃ t', Json.membersInto member path s (ms ++ (key, n') :: ms') = .ok t' ∧ R t t' := by
  obtain ⟨u, hu, hread⟩ := membersInto_append_iff.1 hread
  obtain ⟨v, hv, hread⟩ := membersInto_cons_iff.1 hread
  obtain ⟨v', hv', hR⟩ := hmember hv
  obtain ⟨t', ht', ht⟩ := h.membersInto hR hread
  exact ⟨t', membersInto_append_iff.2 ⟨u, hu, membersInto_cons_iff.2 ⟨v', hv', ht'⟩⟩, ht⟩

end Objects

/-! ## §5 Values of any type -/

/-- Adds a member of any type to those read before. -/
def anyMember (vs : List (String × Json)) (key : Option String) (path : Path) (n : Node) :
    Except Fault (List (String × Json)) := do
  let key ← needText key
  let v ← anyValue (.any :: path) n
  return Entries.put key v vs

theorem anyItems_eq_listFrom (path : Path) (k : Nat) (ns : List Node) :
    anyItems path k ns = listFrom anyValue path k ns := by
  induction ns generalizing k with
  | nil => simp [anyItems, listFrom]
  | cons n ns ih => simp [anyItems, listFrom, ih]

theorem anyMembers_eq_membersInto (path : Path) (vs : List (String × Json))
    (ms : List (Option String × Node)) :
    anyMembers path vs ms = membersInto anyMember path vs ms := by
  induction ms generalizing vs with
  | nil => simp [anyMembers, membersInto]
  | cons m ms ih =>
    obtain ⟨key, n⟩ := m
    simp [anyMembers, membersInto, anyMember, ih]

theorem anyValue_arr_eq_ok_iff {path : Path} {ns : List Node} {v : Json} :
    anyValue path (.arr ns true) = .ok v ↔
      ∃ vs, listFrom anyValue path 0 ns = .ok vs ∧ v = .arr vs := by
  rw [anyValue, bind_eq_ok_iff]
  simp [anyItems_eq_listFrom, eq_comm]

theorem anyValue_obj_eq_ok_iff {path : Path} {ms : List (Option String × Node)} {v : Json} :
    anyValue path (.obj ms true) = .ok v ↔
      ∃ vs, membersInto anyMember path [] ms = .ok vs ∧ v = .obj vs := by
  rw [anyValue, bind_eq_ok_iff]
  simp [anyMembers_eq_membersInto, eq_comm]

theorem anyMember_eq_ok_iff {vs ws : List (String × Json)} {key : Option String} {path : Path}
    {n : Node} :
    anyMember vs key path n = .ok ws ↔
      ∃ k, key = some k ∧ ∃ v, anyValue (.any :: path) n = .ok v ∧ ws = Entries.put k v vs := by
  simp only [anyMember, bind_eq_ok_iff, pure_eq_ok_iff]
  cases key with
  | none => simp [needText]
  | some k => simp [needText]

/-- Objects that are read as they are may be compared by what they hold under each key. -/
theorem orderly_anyMember : Orderly anyMember fun vs vs' => Alike (.obj vs) (.obj vs') where
  refl vs := .refl _
  trans h h' := h.trans h'
  same h hread := by
    obtain ⟨k, rfl, v, hv, rfl⟩ := anyMember_eq_ok_iff.1 hread
    exact ⟨_, anyMember_eq_ok_iff.2 ⟨k, rfl, v, hv, rfl⟩, h.put (.refl v) k⟩
  swap {s t u} _ _ _ _ _ hkeys hread hread' := by
    obtain ⟨k, rfl, v, hv, rfl⟩ := anyMember_eq_ok_iff.1 hread
    obtain ⟨k', rfl, v', hv', rfl⟩ := anyMember_eq_ok_iff.1 hread'
    have hne : k' ≠ k := fun h => hkeys k rfl (by rw [h])
    refine ⟨_, _, anyMember_eq_ok_iff.2 ⟨k', rfl, v', hv', rfl⟩,
      anyMember_eq_ok_iff.2 ⟨k, rfl, v, hv, rfl⟩, alike_of_get?_eq fun j => ?_⟩
    by_cases hj : k' = j
    · have : k ≠ j := fun h => hne (hj.trans h.symm)
      simp [hj, this]
    · simp [hj]

theorem indifferent_anyValue : Indifferent .any anyValue Alike := by
  intro path n n' v hn hread
  -- on the way to the place of the change all values are taken as they are
  generalize hshape : Shape.any = shape at hn
  induction hn generalizing path v with
  | permute hkeys h =>
    obtain ⟨vs, hvs, rfl⟩ := anyValue_obj_eq_ok_iff.1 hread
    obtain ⟨vs', hvs', hR⟩ := orderly_anyMember.membersInto_perm h hkeys hvs
    exact ⟨.obj vs', anyValue_obj_eq_ok_iff.2 ⟨vs', hvs', rfl⟩, hR⟩
  | insert => cases hshape
  | member ms ms' _ ih =>
    obtain ⟨vs, hvs, rfl⟩ := anyValue_obj_eq_ok_iff.1 hread
    obtain ⟨vs', hvs', hR⟩ := orderly_anyMember.membersInto_member (fun hmember => by
      obtain ⟨k, rfl, w, hw, rfl⟩ := anyMember_eq_ok_iff.1 hmember
      obtain ⟨w', hw', hR⟩ := ih _ w hw (by rw [← hshape, Shape.part_any])
      exact ⟨_, anyMember_eq_ok_iff.2 ⟨k, rfl, w', hw', rfl⟩, (Alike.refl _).put hR k⟩) hvs
    exact ⟨.obj vs', anyValue_obj_eq_ok_iff.2 ⟨vs', hvs', rfl⟩, hR⟩
  | item ns ns' _ ih =>
    obtain ⟨_, hvs, rfl⟩ := anyValue_arr_eq_ok_iff.1 hread
    obtain ⟨us, hus, w, hw, ws, hws, rfl⟩ := listFrom_middle_iff.1 hvs
    obtain ⟨w', hw', hR⟩ := ih _ w hw (by rw [← hshape, Shape.item_any])
    have hread' := listFrom_middle_iff.2 ⟨us, hus, w', hw', ws, hws, rfl⟩
    exact ⟨_, anyValue_arr_eq_ok_iff.2 ⟨_, hread', rfl⟩, hR.item us ws⟩

/-- Nothing but an object is read as one. -/
theorem anyObject_ne_ok {path : Path} {n : Node} (hn : ∀ ms closed, n ≠ .obj ms closed)
    {vs : List (String × Json)} : anyObject path n ≠ .ok vs := by
  unfold anyObject
  split
  · next ms closed => exact absurd rfl (hn ms closed)
  · unfold mismatch
    split <;> exact fun h => by cases h

/-- Reading an object is reading a value that turns out to be one. -/
theorem anyObject_eq_ok_iff {path : Path} {n : Node} {vs : List (String × Json)} :
    anyObject path n = .ok vs ↔ anyValue path n = .ok (.obj vs) := by
  cases n with
  | obj ms closed =>
    rw [anyObject, anyValue, bind_eq_ok_iff, bind_eq_ok_iff]
    cases closed <;> simp
  | arr ns closed =>
    refine iff_of_false (anyObject_ne_ok fun _ _ h => by cases h) fun h => ?_
    rw [anyValue, bind_eq_ok_iff] at h
    cases closed <;> simp at h
  | decimal m e =>
    refine iff_of_false (anyObject_ne_ok fun _ _ h => by cases h) fun h => ?_
    rw [anyValue] at h
    split at h <;> cases h
  | str s =>
    refine iff_of_false (anyObject_ne_ok fun _ _ h => by cases h) fun h => ?_
    cases s <;> cases h
  | _ => exact iff_of_false (anyObject_ne_ok fun _ _ h => by cases h) fun h => by cases h

theorem indifferent_anyObject :
    Indifferent .any anyObject fun vs vs' => Alike (.obj vs) (.obj vs') := by
  intro path n n' vs hn hread
  obtain ⟨v, hv, hR⟩ := indifferent_anyValue path n n' _ hn (anyObject_eq_ok_iff.1 hread)
  have hobj : ∃ vs', v = .obj vs' := by
    cases hR with
    | refl => exact ⟨vs, rfl⟩
    | obj => exact ⟨_, rfl⟩
  obtain ⟨vs', rfl⟩ := hobj
  exact ⟨vs', anyObject_eq_ok_iff.2 hv, hR⟩

/-! ## §6 Objects with known members -/

/-- A member that a reader knows: its key, the shape of its value, and how the value is read and
    kept in a partial result. -/
structure Slot (σ : Type) where
  /-- The key of the member. -/
  key : String
  /-- How its value is taken. -/
  shape : Shape
  /-- What is read of its value. -/
  Value : Type
  /-- The reader of its value. -/
  read : Reader Value
  /-- Keeps what has been read. -/
  keep : σ → Value → σ

section Slots

variable {σ : Type}

/-- The key and the shape of a member. -/
def Slot.entry (slot : Slot σ) : String × Shape := (slot.key, slot.shape)

/-- The slot of members that are passed over. -/
def Slot.spare : Slot σ := ⟨"", .any, Unit, fun _ => skim, fun s _ => s⟩

/-- The slot of a key. -/
def slotFor (slots : List (Slot σ)) (key : Option String) : Slot σ :=
  (slots.find? fun slot => some slot.key == key).getD .spare

/-- Reads one member of an object into the slot of its key. -/
def slotted (slots : List (Slot σ)) (s : σ) (key : Option String) (path : Path) (n : Node) :
    Except Fault σ := do
  let slot := slotFor slots key
  return slot.keep s (← part slot.key slot.read path n)

/-- It does not matter which of two values is kept first. -/
def Slot.Commutes (a b : Slot σ) : Prop :=
  ∀ s v w, b.keep (a.keep s v) w = a.keep (b.keep s w) v

instance : Std.Symm (@Slot.Commutes σ) := ⟨fun _ _ h s v w => (h s w v).symm⟩

/-- The slots of an object do not touch each other, and each of them keeps related values in related
    results. -/
structure Separate (slots : List (Slot σ)) (R : σ → σ → Prop) : Prop where
  refl (s : σ) : R s s
  trans {s t u : σ} (h : R s t) (h' : R t u) : R s u
  same : ∀ slot ∈ slots, ∀ {s s'} v, R s s' → R (slot.keep s v) (slot.keep s' v)
  swap : slots.Pairwise Slot.Commutes
  moved : ∀ slot ∈ slots, ∀ s, Indifferent slot.shape slot.read fun v v' =>
    R (slot.keep s v) (slot.keep s v')

variable {slots : List (Slot σ)}

theorem slotFor_cases (slots : List (Slot σ)) (key : Option String) :
    (slotFor slots key ∈ slots ∧ key = some (slotFor slots key).key) ∨
      slotFor slots key = .spare := by
  unfold slotFor
  cases hfind : slots.find? fun slot => some slot.key == key with
  | none => exact .inr rfl
  | some slot =>
    have hkey := List.find?_some hfind
    exact .inl ⟨List.mem_of_find?_eq_some hfind, (beq_iff_eq.1 hkey).symm⟩

theorem slotFor_eq_spare {key : Option String}
    (hkey : ∀ e ∈ slots.map Slot.entry, key ≠ some e.1) : slotFor slots key = .spare := by
  rcases slotFor_cases slots key with ⟨hmem, heq⟩ | hspare
  · exact absurd heq (hkey _ (List.mem_map_of_mem hmem))
  · exact hspare

/-- A member that has no slot is passed over. -/
theorem slotted_of_unknown {key : Option String}
    (hkey : ∀ e ∈ slots.map Slot.entry, key ≠ some e.1) (s : σ) (path : Path) (n : Node) :
    slotted slots s key path n = do skim n; return s := by
  rw [slotted, slotFor_eq_spare hkey]
  rfl

theorem part_entry (slots : List (Slot σ)) (key : Option String) :
    Shape.part (.fields (slots.map Slot.entry)) key = (slotFor slots key).shape := by
  cases key with
  | none =>
    rcases slotFor_cases slots none with ⟨-, h⟩ | h
    · cases h
    · rw [h]
      rfl
  | some k =>
    induction slots with
    | nil => rfl
    | cons slot slots ih =>
      by_cases hk : slot.key = k
      · simp [Shape.part, slotFor, Slot.entry, Entries.get?, hk]
      · simpa [Shape.part, slotFor, Slot.entry, Entries.get?, hk] using ih

theorem slotted_eq_ok_iff {s t : σ} {key : Option String} {path : Path} {n : Node} :
    slotted slots s key path n = .ok t ↔
      ∃ v, part (slotFor slots key).key (slotFor slots key).read path n = .ok v ∧
        t = (slotFor slots key).keep s v := by
  simp only [slotted, bind_eq_ok_iff, pure_eq_ok_iff]

variable {R : σ → σ → Prop}

theorem Separate.slot_same (h : Separate slots R) (key : Option String) {s s' : σ}
    (hs : R s s') (v : (slotFor slots key).Value) :
    R ((slotFor slots key).keep s v) ((slotFor slots key).keep s' v) := by
  rcases slotFor_cases slots key with ⟨hmem, -⟩ | hspare
  · exact h.same _ hmem v hs
  · generalize slotFor slots key = slot at *
    subst hspare
    exact hs

theorem Separate.slot_swap (h : Separate slots R) {key key' : Option String}
    (hkeys : ∀ k, key = some k → key' ≠ some k) (s : σ) (v : (slotFor slots key).Value)
    (w : (slotFor slots key').Value) :
    (slotFor slots key').keep ((slotFor slots key).keep s v) w =
      (slotFor slots key).keep ((slotFor slots key').keep s w) v := by
  -- two known members have slots of their own, and a member that is passed over keeps nothing
  rcases slotFor_cases slots key with ⟨hmem, heq⟩ | hspare
  · rcases slotFor_cases slots key' with ⟨hmem', heq'⟩ | hspare'
    · have hne : slotFor slots key ≠ slotFor slots key' := by
        intro hslot
        rw [← hslot] at heq'
        exact hkeys _ heq heq'
      exact h.swap.forall hmem hmem' hne s v w
    · generalize slotFor slots key' = slot at *
      subst hspare'
      rfl
  · generalize slotFor slots key = slot at *
    subst hspare
    rfl

theorem Separate.slot_moved (h : Separate slots R) (key : Option String) (s : σ) :
    Indifferent (slotFor slots key).shape (slotFor slots key).read fun v v' =>
      R ((slotFor slots key).keep s v) ((slotFor slots key).keep s v') := by
  rcases slotFor_cases slots key with ⟨hmem, -⟩ | hspare
  · exact h.moved _ hmem s
  · generalize slotFor slots key = slot at *
    subst hspare
    intro path n n' _ hn hread
    exact ⟨(), skim_eq_ok_iff.2 ((skim_eq_ok_iff.1 hread).rearranged hn), h.refl s⟩

theorem Separate.orderly (h : Separate slots R) : Orderly (slotted slots) R where
  refl := h.refl
  trans := h.trans
  same hs hread := by
    obtain ⟨v, hv, rfl⟩ := slotted_eq_ok_iff.1 hread
    exact ⟨_, slotted_eq_ok_iff.2 ⟨v, hv, rfl⟩, h.slot_same _ hs v⟩
  swap {s t u} _ _ _ _ _ hkeys hread hread' := by
    obtain ⟨v, hv, rfl⟩ := slotted_eq_ok_iff.1 hread
    obtain ⟨w, hw, rfl⟩ := slotted_eq_ok_iff.1 hread'
    refine ⟨_, _, slotted_eq_ok_iff.2 ⟨w, hw, rfl⟩, slotted_eq_ok_iff.2 ⟨v, hv, rfl⟩, ?_⟩
    rw [h.slot_swap hkeys]
    exact h.refl _

variable {α : Type} {start : σ} {finish : Path → σ → Except Fault α} {S : α → α → Prop}

theorem object_obj_eq_ok_iff {member : σ → Option String → Path → Node → Except Fault σ}
    {path : Path} {ms : List (Option String × Node)} {a : α} :
    object start member finish path (.obj ms true) = .ok a ↔
      ∃ s, membersInto member path start ms = .ok s ∧ finish path s = .ok a := by
  rw [object, bind_eq_ok_iff]
  simp

/-- Readers of objects do not mind rearrangement if their slots are separate. -/
theorem indifferent_object (h : Separate slots R)
    (hfinish : ∀ {path s s' a}, R s s' → finish path s = .ok a →
      ∃ a', finish path s' = .ok a' ∧ S a a') :
    Indifferent (.fields (slots.map Slot.entry)) (object start (slotted slots) finish) S := by
  intro path n n' a hn hread
  -- it is enough to read the members into a related result
  have hread' : ∀ {ms ms'}, object start (slotted slots) finish path (.obj ms true) = .ok a →
      (∀ s, membersInto (slotted slots) path start ms = .ok s →
        ∃ s', membersInto (slotted slots) path start ms' = .ok s' ∧ R s s') →
      ∃ a', object start (slotted slots) finish path (.obj ms' true) = .ok a' ∧ S a a' := by
    intro ms ms' hread hms
    obtain ⟨s, hs, ha⟩ := object_obj_eq_ok_iff.1 hread
    obtain ⟨s', hs', hR⟩ := hms s hs
    obtain ⟨a', ha', hS⟩ := hfinish hR ha
    exact ⟨a', object_obj_eq_ok_iff.2 ⟨s', hs', ha'⟩, hS⟩
  cases hn with
  | permute hkeys hms =>
    exact hread' hread fun s hs => h.orderly.membersInto_perm hms hkeys hs
  | insert ms ms' hkey hn =>
    refine hread' hread fun s hs => ?_
    obtain ⟨t, ht, hs⟩ := membersInto_append_iff.1 hs
    refine ⟨s, membersInto_append_iff.2 ⟨t, ht, membersInto_cons_iff.2 ⟨t, ?_, hs⟩⟩, h.refl s⟩
    rw [slotted_of_unknown hkey]
    exact bind_eq_ok_iff.2 ⟨(), skim_eq_ok_iff.2 hn, rfl⟩
  | member ms ms' hn =>
    -- the change is in the value of a known member, or in a value that is passed over
    rw [part_entry] at hn
    refine hread' hread fun s hs => h.orderly.membersInto_member (fun {t u} hmember => ?_) hs
    obtain ⟨v, hv, rfl⟩ := slotted_eq_ok_iff.1 hmember
    obtain ⟨v', hv', hR⟩ := h.slot_moved _ t _ _ _ v hn hv
    exact ⟨_, slotted_eq_ok_iff.2 ⟨v', hv', rfl⟩, hR⟩
  | item => cases hread

/-- Partial results that are compared as they are call for no more than slots that do not touch each
    other. -/
theorem indifferent_object_of_commutes (hswap : slots.Pairwise Slot.Commutes)
    (hread : ∀ slot ∈ slots, Indifferent slot.shape slot.read Eq) :
    Indifferent (.fields (slots.map Slot.entry)) (object start (slotted slots) finish) Eq := by
  have hseparate : Separate slots Eq :=
    { refl := fun _ => rfl
      trans := Eq.trans
      same := fun slot _ _ _ v h => congrArg (slot.keep · v) h
      swap := hswap
      moved := fun slot hmem s => (hread slot hmem).mono fun h => congrArg (slot.keep s) h }
  refine indifferent_object hseparate fun hs ha => ?_
  subst hs
  exact ⟨_, ha, rfl⟩

end Slots

/-! ## §7 Many changes -/

/-- A reader that does not mind one change does not mind many. -/
theorem Indifferent.rearrangements {α : Type} {shape : Shape} {read : Reader α} {R : α → α → Prop}
    (h : Indifferent shape read R) (hrefl : ∀ a, R a a) (htrans : ∀ {a b c}, R a b → R b c → R a c)
    {n n' : Node} (hn : Relation.ReflTransGen (Rearranged shape) n n') {path : Path} {a : α}
    (hread : read path n = .ok a) : ∃ a', read path n' = .ok a' ∧ R a a' := by
  induction hn with
  | refl => exact ⟨a, hread, hrefl a⟩
  | tail _ hstep ih =>
    obtain ⟨b, hb, hab⟩ := ih
    obtain ⟨c, hc, hbc⟩ := h _ _ _ b hstep hb
    exact ⟨c, hc, htrans hab hbc⟩

theorem Document.read_eq_ok_iff {α : Type} {reader : Reader α} {d : Document} {a : α} :
    d.read reader = .ok a ↔ ∃ n, d = ⟨n, true⟩ ∧ reader [] n = .ok a := by
  obtain ⟨root, ended⟩ := d
  rw [Document.read, bind_eq_ok_iff]
  cases ended <;> simp [eq_comm]

end Json

end TypeAtlas
