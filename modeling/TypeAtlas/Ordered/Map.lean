import TypeAtlas.Ordered.Set

/-!
# Ordered maps

A finite map is kept as its list of entries in strictly ascending order of keys, so two maps that
answer every look-up alike are the same value.

Main statements: `OrdMap.get?_insert` says what a write does to every look-up, and
`OrdMap.ext_get?` that look-ups are all there is.
-/

namespace TypeAtlas

variable {κ β : Type} [Ord κ]

/-! ## §1 Entries in ascending order of keys -/

/-- Write the value of a key into an ascending list of entries, in place of an earlier value. -/
def insertEntry (k : κ) (b : β) : List (κ × β) → List (κ × β)
  | [] => [(k, b)]
  | (k', b') :: rest =>
    match compare k k' with
    | .lt => (k, b) :: (k', b') :: rest
    | .eq => (k, b) :: rest
    | .gt => (k', b') :: insertEntry k b rest

/-- The value of the first entry with the given key. -/
def lookupEntry [DecidableEq κ] (k : κ) : List (κ × β) → Option β
  | [] => none
  | (k', b) :: rest => if k = k' then some b else lookupEntry k rest

/-- Entries whose keys ascend strictly. -/
def AscendingKeys (es : List (κ × β)) : Prop :=
  es.Pairwise (fun a b => compare a.1 b.1 = .lt)

omit [Ord κ] in
theorem mem_of_lookupEntry [DecidableEq κ] {k : κ} {b : β} {es : List (κ × β)}
    (h : lookupEntry k es = some b) : (k, b) ∈ es := by
  induction es with
  | nil => simp [lookupEntry] at h
  | cons e es ih =>
    obtain ⟨k', b'⟩ := e
    rw [lookupEntry] at h
    split at h
    · next hk => cases hk; cases h; exact List.mem_cons_self
    · exact List.mem_cons_of_mem _ (ih h)

section Laws

variable [Std.TransOrd κ] [Std.LawfulEqOrd κ]

omit [Std.TransOrd κ] [Std.LawfulEqOrd κ] in
private theorem mem_insertEntry_imp {k : κ} {b : β} {es : List (κ × β)} {e : κ × β}
    (h : e ∈ insertEntry k b es) : e = (k, b) ∨ e ∈ es := by
  induction es with
  | nil => simpa [insertEntry] using h
  | cons e' es ih =>
    obtain ⟨k', b'⟩ := e'
    rw [insertEntry] at h
    split at h
    · simpa using h
    · rcases List.mem_cons.1 h with h | h
      · exact .inl h
      · exact .inr (List.mem_cons_of_mem _ h)
    · rcases List.mem_cons.1 h with h | h
      · exact .inr (by rw [h]; exact List.mem_cons_self)
      · exact (ih h).imp_right (List.mem_cons_of_mem _)

/-- A write keeps the keys in ascending order. -/
theorem ascendingKeys_insertEntry {k : κ} {b : β} {es : List (κ × β)} (h : AscendingKeys es) :
    AscendingKeys (insertEntry k b es) := by
  induction es with
  | nil => exact List.pairwise_singleton _ _
  | cons e es ih =>
    obtain ⟨k', b'⟩ := e
    rw [insertEntry]
    -- the key comes before the first one, or it is the first one, or it comes later
    split
    · next hlt =>
      refine List.pairwise_cons.2 ⟨fun e he => ?_, h⟩
      rcases List.mem_cons.1 he with rfl | he
      · exact hlt
      · exact Std.TransCmp.lt_trans hlt (List.rel_of_pairwise_cons h he)
    · next heq =>
      cases Std.LawfulEqCmp.eq_of_compare heq
      exact List.pairwise_cons.2 ⟨fun e he => List.rel_of_pairwise_cons (a := (k, b')) h he,
        h.of_cons⟩
    · next hgt =>
      refine List.pairwise_cons.2 ⟨fun e he => ?_, ih h.of_cons⟩
      rcases mem_insertEntry_imp he with rfl | he
      · exact Std.OrientedCmp.gt_iff_lt.1 hgt
      · exact List.rel_of_pairwise_cons h he

omit [Std.TransOrd κ] in
/-- A write is seen by look-ups of its own key and by no other look-up. -/
theorem lookupEntry_insertEntry [DecidableEq κ] {k j : κ} {b : β} {es : List (κ × β)} :
    lookupEntry j (insertEntry k b es) = if j = k then some b else lookupEntry j es := by
  induction es with
  | nil => simp [insertEntry, lookupEntry]
  | cons e es ih =>
    obtain ⟨k', b'⟩ := e
    rw [insertEntry]
    split
    · simp [lookupEntry]
    · next heq =>
      cases Std.LawfulEqCmp.eq_of_compare heq
      by_cases hj : j = k <;> simp [lookupEntry, hj]
    · next hgt =>
      have hne : k ≠ k' := by
        intro heq
        subst heq
        simp at hgt
      by_cases hj' : j = k'
      · subst hj'
        simp [lookupEntry, Ne.symm hne]
      · simp [lookupEntry, hj', ih]

end Laws

/-! ## §2 Maps -/

/-- A finite map, kept as its entries in strictly ascending order of keys. -/
structure OrdMap (κ β : Type) [Ord κ] where
  /-- The entries in ascending order of keys. -/
  entries : List (κ × β)
  /-- The order is strict, so a key has one value. -/
  ascending : AscendingKeys entries

namespace OrdMap

/-- The map without entries. -/
def empty : OrdMap κ β := ⟨[], List.Pairwise.nil⟩

instance : EmptyCollection (OrdMap κ β) := ⟨empty⟩

instance : Inhabited (OrdMap κ β) := ⟨empty⟩

/-- The value of a key. -/
def get? [DecidableEq κ] (m : OrdMap κ β) (k : κ) : Option β := lookupEntry k m.entries

/-- Whether the key has a value. -/
def contains [DecidableEq κ] (m : OrdMap κ β) (k : κ) : Bool := (m.get? k).isSome

/-- The number of keys that have a value. -/
def size (m : OrdMap κ β) : Nat := m.entries.length

@[simp] theorem get?_empty [DecidableEq κ] (k : κ) : (∅ : OrdMap κ β).get? k = none := rfl

section Laws

variable [Std.TransOrd κ] [Std.LawfulEqOrd κ]

/-- The map with the value of `k` set to `b`. -/
def insert (k : κ) (b : β) (m : OrdMap κ β) : OrdMap κ β :=
  ⟨insertEntry k b m.entries, ascendingKeys_insertEntry m.ascending⟩

@[simp] theorem get?_insert [DecidableEq κ] {m : OrdMap κ β} {k j : κ} {b : β} :
    (m.insert k b).get? j = if j = k then some b else m.get? j :=
  lookupEntry_insertEntry

omit [Std.TransOrd κ] in
/-- The entries are what look-ups find. -/
theorem mem_entries_iff [DecidableEq κ] {m : OrdMap κ β} {k : κ} {b : β} :
    (k, b) ∈ m.entries ↔ m.get? k = some b := by
  refine ⟨fun h => ?_, mem_of_lookupEntry⟩
  obtain ⟨es, hes⟩ := m
  show lookupEntry k es = some b
  induction es with
  | nil => cases h
  | cons e es ih =>
    obtain ⟨j, c⟩ := e
    rw [lookupEntry]
    rcases List.mem_cons.1 h with heq | hrest
    · cases heq
      simp
    · -- the first key comes before this one
      have hlt : compare j k = .lt := List.rel_of_pairwise_cons hes hrest
      have hne : k ≠ j := by
        rintro rfl
        simp at hlt
      rw [if_neg hne]
      exact ih hes.of_cons hrest

omit [Std.TransOrd κ] in
/-- The first key does not occur again. -/
private theorem lookupEntry_rest [DecidableEq κ] {k : κ} {b : β} {es : List (κ × β)}
    (hs : AscendingKeys ((k, b) :: es)) : lookupEntry k es = none := by
  cases hl : lookupEntry k es with
  | none => rfl
  | some d =>
    have hlt : compare k k = .lt := List.rel_of_pairwise_cons hs (mem_of_lookupEntry hl)
    simp at hlt

/-- Entries that answer every look-up alike begin alike. -/
private theorem head_eq_of_lookupEntry [DecidableEq κ] {k j : κ} {b c : β} {es fs : List (κ × β)}
    (hes : AscendingKeys ((k, b) :: es)) (hfs : AscendingKeys ((j, c) :: fs))
    (h : ∀ i, lookupEntry i ((k, b) :: es) = lookupEntry i ((j, c) :: fs)) : (k, b) = (j, c) := by
  have hk : (k, b) ∈ (j, c) :: fs := mem_of_lookupEntry ((h k).symm.trans (by simp [lookupEntry]))
  have hj : (j, c) ∈ (k, b) :: es := mem_of_lookupEntry ((h j).trans (by simp [lookupEntry]))
  rcases List.mem_cons.1 hk with hfirst | hlater
  · exact hfirst
  · rcases List.mem_cons.1 hj with hfirst' | hlater'
    · exact hfirst'.symm
    · -- otherwise each of the two keys comes before the other one
      have hjk : compare j k = .lt := List.rel_of_pairwise_cons hfs hlater
      have hkj : compare k j = .lt := List.rel_of_pairwise_cons hes hlater'
      have hjj : compare j j = .lt := Std.TransCmp.lt_trans hjk hkj
      simp at hjj

private theorem eq_of_lookupEntry [DecidableEq κ] {es fs : List (κ × β)}
    (hes : AscendingKeys es) (hfs : AscendingKeys fs)
    (h : ∀ k, lookupEntry k es = lookupEntry k fs) : es = fs := by
  induction es generalizing fs with
  | nil =>
    cases fs with
    | nil => rfl
    | cons f fs => simpa [lookupEntry] using h f.1
  | cons e es ih =>
    obtain ⟨k, b⟩ := e
    cases fs with
    | nil => simpa [lookupEntry] using h k
    | cons f fs =>
      obtain ⟨j, c⟩ := f
      cases head_eq_of_lookupEntry hes hfs h
      have hrest : ∀ i, lookupEntry i es = lookupEntry i fs := by
        intro i
        by_cases hi : i = k
        · rw [hi, lookupEntry_rest hes, lookupEntry_rest hfs]
        · simpa [lookupEntry, hi] using h i
      rw [ih hes.of_cons hfs.of_cons hrest]

/-- Two maps that answer every look-up alike are the same map. -/
theorem ext_get? [DecidableEq κ] {m n : OrdMap κ β} (h : ∀ k, m.get? k = n.get? k) : m = n := by
  have hentries : m.entries = n.entries := eq_of_lookupEntry m.ascending n.ascending h
  cases m
  cases n
  cases hentries
  rfl

end Laws

end OrdMap

end TypeAtlas
