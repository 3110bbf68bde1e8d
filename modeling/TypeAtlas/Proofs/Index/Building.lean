import TypeAtlas.Proofs.Ordered.FirstOccurrences
import TypeAtlas.Proofs.Session.Index

/-!
# Building an index

What an index keeps of a schema. Where the schema describes a name more than once, its last
description is the one that the index finds, and the index has no other description of that name.

Main statements: `TypeIndex.find?_ofSchema`, `TypeIndex.mem_types_ofSchema_iff` and
`TypeIndex.isPrimitive_ofSchema_iff`.
-/

namespace TypeAtlas

open Schema

namespace TypeIndex

/-! ## §1 One description for each name -/

theorem find?_putType {d : TypeDecl} {ds : List TypeDecl} {t : TypeName} :
    ((putType d ds).find? fun e => e.name == t) =
      if d.name = t then some d else ds.find? fun e => e.name == t := by
  induction ds with
  | nil => by_cases hd : d.name = t <;> simp [putType, hd]
  | cons e ds ih =>
    unfold putType
    by_cases he : e.name = d.name
    · -- `d` takes the place of `e`, which has the same name
      rw [if_pos he]
      by_cases hd : d.name = t <;> simp [hd, he]
    · rw [if_neg he]
      by_cases het : e.name = t
      · have hd : d.name ≠ t := fun hd => he (het.trans hd.symm)
        simp [het, hd]
      · simp [het, ih]

theorem map_name_putType (d : TypeDecl) (ds : List TypeDecl) :
    (putType d ds).map TypeDecl.name = addNew (ds.map TypeDecl.name) d.name := by
  unfold addNew
  induction ds with
  | nil => rfl
  | cons e ds ih =>
    unfold putType
    by_cases he : e.name = d.name
    · simp [he]
    · rw [if_neg he, List.map_cons, ih]
      by_cases hmem : d.name ∈ ds.map TypeDecl.name <;> simp [hmem, Ne.symm he]

/-- Names added one after the other stand behind those that were there, the new ones once each. -/
theorem foldl_addNew_eq (ns ms : List TypeName) :
    ms.foldl addNew ns = ns ++ (ms.filter fun m => !ns.contains m).eraseDups := by
  induction ms generalizing ns with
  | nil => simp
  | cons m ms ih =>
    rw [List.foldl_cons, ih]
    unfold addNew
    by_cases hm : m ∈ ns
    · simp [hm]
    · -- `m` is the next name, and nothing equal to it is added after it
      have hrest : (ms.filter fun n => !(ns ++ [m]).contains n) =
          (ms.filter fun n => !ns.contains n).filter fun n => !(n == m) := by
        rw [List.filter_filter]
        apply List.filter_congr
        intro n _
        by_cases hn : n ∈ ns <;> by_cases heq : n = m <;> simp [hn, heq]
      have hcontains : ns.contains m = false := by simpa using hm
      rw [List.filter_cons, hcontains, if_neg Bool.false_ne_true, Bool.not_false, if_pos rfl,
        List.eraseDups_cons, hrest, List.append_assoc, List.singleton_append]

/-- To keep the first of equal names is to add them one after the other. -/
theorem distinct_eq_eraseDups (ns : List TypeName) : distinct ns = ns.eraseDups := by
  unfold distinct
  rw [foldl_addNew_eq]
  simp

/-- The names that are described, each at the place of its first description. -/
theorem map_name_mergeTypes (ds : List TypeDecl) :
    (mergeTypes ds).map TypeDecl.name = (ds.map TypeDecl.name).eraseDups := by
  have key : ∀ acc : List TypeDecl,
      (ds.foldl (fun acc d => putType d acc) acc).map TypeDecl.name =
        (ds.map TypeDecl.name).foldl addNew (acc.map TypeDecl.name) := by
    induction ds with
    | nil => exact fun acc => rfl
    | cons d ds ih =>
      intro acc
      rw [List.foldl_cons, ih, map_name_putType, List.map_cons, List.foldl_cons]
  exact (key []).trans (distinct_eq_eraseDups _)

/-- A name is found with its last description. -/
theorem find?_mergeTypes (ds : List TypeDecl) (t : TypeName) :
    ((mergeTypes ds).find? fun e => e.name == t) = ds.findRev? fun e => e.name == t := by
  have key : ∀ acc : List TypeDecl,
      ((ds.foldl (fun acc d => putType d acc) acc).find? fun e => e.name == t) =
        (ds.findRev? fun e => e.name == t).or (acc.find? fun e => e.name == t) := by
    induction ds with
    | nil => exact fun acc => rfl
    | cons d ds ih =>
      intro acc
      rw [List.foldl_cons, ih, find?_putType, List.findRev?]
      -- a later description of the name counts, and else `d` if it is one
      cases ds.findRev? fun e => e.name == t with
      | some e => rfl
      | none => by_cases hd : d.name = t <;> simp [hd]
  exact (key []).trans (Option.or_none)

theorem putType_map {g : TypeDecl → TypeDecl} (hg : ∀ d, (g d).name = d.name) (d : TypeDecl)
    (ds : List TypeDecl) : putType (g d) (ds.map g) = (putType d ds).map g := by
  induction ds with
  | nil => rfl
  | cons e ds ih =>
    simp only [putType, List.map_cons, hg]
    split
    case isTrue => rfl
    case isFalse => rw [ih, List.map_cons]

/-- What changes descriptions but not their names can be done before or after merging. -/
theorem mergeTypes_map {g : TypeDecl → TypeDecl} (hg : ∀ d, (g d).name = d.name)
    (ds : List TypeDecl) : mergeTypes (ds.map g) = (mergeTypes ds).map g := by
  have key : ∀ acc : List TypeDecl,
      (ds.map g).foldl (fun acc d => putType d acc) (acc.map g) =
        (ds.foldl (fun acc d => putType d acc) acc).map g := by
    induction ds with
    | nil => exact fun acc => rfl
    | cons d ds ih =>
      intro acc
      rw [List.map_cons, List.foldl_cons, List.foldl_cons, putType_map hg, ih]
  exact key []

/-- A description of a new name goes to the end. -/
theorem putType_of_not_mem {d : TypeDecl} {ds : List TypeDecl}
    (hd : d.name ∉ ds.map TypeDecl.name) : putType d ds = ds ++ [d] := by
  induction ds with
  | nil => rfl
  | cons e ds ih =>
    simp only [List.map_cons, List.mem_cons, not_or] at hd
    rw [putType, if_neg (Ne.symm hd.1), ih hd.2, List.cons_append]

/-- Where no name is described twice, there is nothing to merge. -/
theorem mergeTypes_of_nodup {ds : List TypeDecl} (hds : (ds.map TypeDecl.name).Nodup) :
    mergeTypes ds = ds := by
  have key : ∀ acc : List TypeDecl, ((acc ++ ds).map TypeDecl.name).Nodup →
      ds.foldl (fun acc d => putType d acc) acc = acc ++ ds := by
    clear hds
    induction ds with
    | nil => simp
    | cons d ds ih =>
      intro acc hacc
      have hnew : d.name ∉ acc.map TypeDecl.name := by
        intro hmem
        rw [List.map_append, List.nodup_append] at hacc
        exact hacc.2.2 _ hmem _ (List.mem_map_of_mem List.mem_cons_self) rfl
      rw [List.foldl_cons, putType_of_not_mem hnew, ih _ (by simpa using hacc)]
      simp
  exact key [] hds

theorem nodup_addNew {ns : List TypeName} (h : ns.Nodup) (n : TypeName) : (addNew ns n).Nodup := by
  unfold addNew
  split
  case isTrue => exact h
  case isFalse hn =>
    have hn : n ∉ ns := by simpa using hn
    rw [← List.concat_eq_append, List.nodup_concat]
    exact ⟨hn, h⟩

theorem nodup_foldl_addNew {ns ms : List TypeName} (hns : ns.Nodup) :
    (ms.foldl addNew ns).Nodup := by
  induction ms generalizing ns with
  | nil => exact hns
  | cons m ms ih => exact ih (nodup_addNew hns m)

/-- Keeping the first of equal names leaves no two equal ones. -/
theorem nodup_distinct (ns : List TypeName) : (distinct ns).Nodup :=
  nodup_foldl_addNew List.nodup_nil

/-- No name is described twice. -/
theorem nodup_names_mergeTypes (ds : List TypeDecl) :
    ((mergeTypes ds).map TypeDecl.name).Nodup := by
  rw [map_name_mergeTypes]
  exact nodup_eraseDups _

/-- Where no name is described twice, a description is the one found for its name. -/
theorem mem_iff_find?_eq_some {ds : List TypeDecl} (hds : (ds.map TypeDecl.name).Nodup)
    {d : TypeDecl} : d ∈ ds ↔ (ds.find? fun e => e.name == d.name) = some d := by
  apply Iff.intro
  · intro hd
    induction ds with
    | nil => cases hd
    | cons e ds ih =>
      obtain ⟨he, hds⟩ := List.nodup_cons.1 hds
      rcases List.mem_cons.1 hd with rfl | hd
      · simp
      · -- `e` is another description, and so one of another name
        have hne : e.name ≠ d.name := fun heq => he (heq ▸ List.mem_map_of_mem hd)
        simp [hne, ih hds hd]
  · exact List.mem_of_find?_eq_some

/-- Where no name is described twice, the descriptions are those found for the names. -/
theorem filterMap_find?_of_nodup {ds : List TypeDecl} (hds : (ds.map TypeDecl.name).Nodup) :
    ((ds.map TypeDecl.name).filterMap fun n => ds.find? fun e => e.name == n) = ds := by
  have hfound : ∀ d ∈ ds, (ds.find? fun e => e.name == d.name) = some d := fun d hd =>
    (mem_iff_find?_eq_some hds).1 hd
  rw [List.filterMap_map]
  calc ds.filterMap ((fun n => ds.find? fun e => e.name == n) ∘ TypeDecl.name)
      = ds.filterMap some := List.filterMap_congr hfound
    _ = ds := List.filterMap_some

end TypeIndex

/-! ## §2 The index of a schema -/

/-- The last description of a name. -/
def Schema.last? (s : Schema) (t : TypeName) : Option TypeDecl :=
  s.types.findRev? fun d => d.name == t

/-- No type of the schema has an empty name, or an empty string among the types nested in it. -/
def Schema.Named (s : Schema) : Prop := ∀ d ∈ s.types, d.name ≠ "" ∧ "" ∉ d.nested

/-- A name that stands for a primitive type, by itself, by the schema or by being one of the further
    primitives, or for an array. -/
def Schema.Reserves (s : Schema) (extra : List TypeName) (n : TypeName) : Prop :=
  n ∈ builtinPrimitives ∨ n ∈ s.primitives ∨ n ∈ extra ∨ (∃ v, n = v ++ "[]") ∨ ∃ v, n = "[" ++ v

theorem Schema.mem_types_of_last? {s : Schema} {t : TypeName} {d : TypeDecl}
    (h : s.last? t = some d) : d ∈ s.types ∧ d.name = t := by
  unfold last? at h
  rw [List.findRev?_eq_find?_reverse] at h
  exact ⟨List.mem_reverse.1 (List.mem_of_find?_eq_some h), by simpa using List.find?_some h⟩

/-- A name has a last description exactly when it has one at all. -/
theorem Schema.last?_eq_none_iff {s : Schema} {t : TypeName} :
    s.last? t = none ↔ ∀ d ∈ s.types, d.name ≠ t := by
  unfold last?
  rw [List.findRev?_eq_find?_reverse]
  simp

namespace TypeIndex

variable {s : Schema} {extra : List TypeName}

theorem find?_ofSchema (s : Schema) (extra : List TypeName) (t : TypeName) :
    (ofSchema s extra).find? t = s.last? t :=
  find?_mergeTypes s.types t

/-- The descriptions of the index are the last ones of their names. -/
theorem mem_types_ofSchema_iff {d : TypeDecl} :
    d ∈ (ofSchema s extra).types ↔ s.last? d.name = some d := by
  rw [← find?_ofSchema s extra]
  exact mem_iff_find?_eq_some (nodup_names_mergeTypes s.types)

theorem nodup_addNested (parent : TypeName) {ns : List TypeName} (hns : ns.Nodup) (d : TypeDecl) :
    (addNested parent ns d).Nodup := by
  have hown : (if d.name = parent then d.nested.foldl addNew ns else ns).Nodup := by
    split
    case isTrue => exact nodup_foldl_addNew hns
    case isFalse => exact hns
  unfold addNested
  dsimp only
  split
  case isTrue => exact nodup_addNew hown d.name
  case isFalse => exact hown

/-- No type is nested in another one twice. -/
theorem nodup_nestedIn (x : TypeIndex) (parent : TypeName) : (x.nestedIn parent).Nodup := by
  have key : ∀ (ds : List TypeDecl) (ns : List TypeName), ns.Nodup →
      (ds.foldl (addNested parent) ns).Nodup := by
    intro ds
    induction ds with
    | nil => exact fun ns hns => hns
    | cons d ds ih => exact fun ns hns => ih _ (nodup_addNested parent hns d)
  exact key x.types [] List.nodup_nil

/-- The types nested in a described type are those that it names, and those that declare it. What
    declares the empty name declares nothing. -/
theorem mem_nestedIn_ofSchema_iff {d : TypeDecl} {n : TypeName} (hd : s.last? d.name = some d) :
    n ∈ (ofSchema s extra).nestedIn d.name ↔
      n ∈ d.nested ∨ d.name ≠ "" ∧ ∃ e, s.last? n = some e ∧ e.declaring = some d.name := by
  rw [mem_nestedIn_iff]
  apply Iff.intro
  · intro h
    obtain ⟨e, he, ⟨hsame, hmem⟩ | ⟨hdeclaring, rfl⟩⟩ := h
    · -- the index has one description of the name
      have he := mem_types_ofSchema_iff.1 he
      rw [hsame, hd] at he
      cases he
      exact .inl hmem
    · obtain ⟨hname, hdeclaring⟩ := bind_nonempty?_eq_some_iff.1 hdeclaring
      exact .inr ⟨hname, e, mem_types_ofSchema_iff.1 he, hdeclaring⟩
  · intro h
    rcases h with hmem | ⟨hname, e, he, hdeclaring⟩
    · exact ⟨d, mem_types_ofSchema_iff.2 hd, .inl ⟨rfl, hmem⟩⟩
    · obtain ⟨-, rfl⟩ := Schema.mem_types_of_last? he
      exact ⟨e, mem_types_ofSchema_iff.2 he,
        .inr ⟨bind_nonempty?_eq_some_iff.2 ⟨hname, hdeclaring⟩, rfl⟩⟩

theorem isSuffixOf_brackets_iff {n : String} :
    "[]".toList.isSuffixOf n.toList = true ↔ ∃ v, n = v ++ "[]" := by
  simp only [List.isSuffixOf_iff_suffix, ← String.toList_inj, String.toList_append]
  apply Iff.intro
  · rintro ⟨first, h⟩
    exact ⟨String.ofList first, by rw [String.toList_ofList, h]⟩
  · rintro ⟨v, h⟩
    exact ⟨v.toList, h.symm⟩

theorem head?_eq_bracket_iff {n : String} :
    (n.toList.head? == some '[') = true ↔ ∃ v, n = "[" ++ v := by
  simp only [beq_iff_eq, List.head?_eq_some_iff, ← String.toList_inj, String.toList_append]
  apply Iff.intro
  · rintro ⟨rest, h⟩
    exact ⟨String.ofList rest, by simp [h]⟩
  · rintro ⟨v, h⟩
    exact ⟨v.toList, h⟩

theorem isPrimitive_ofSchema_iff {n : TypeName} :
    (ofSchema s extra).isPrimitive n = true ↔ s.Reserves extra n := by
  unfold isPrimitive Schema.Reserves
  rw [Bool.or_eq_true, Bool.or_eq_true, isSuffixOf_brackets_iff, head?_eq_bracket_iff]
  have hprimitives : (ofSchema s extra).primitives.toList.contains n = true ↔
      n ∈ builtinPrimitives ∨ n ∈ s.primitives ∨ n ∈ extra := by
    rw [List.contains_iff_mem, OrdSet.mem_toList]
    show n ∈ OrdSet.ofList (builtinPrimitives ++ s.primitives ++ extra) ↔ _
    rw [OrdSet.mem_ofList, List.append_assoc, List.mem_append, List.mem_append]
  rw [hprimitives]
  simp only [or_assoc]

/-! ## §3 Names -/

/-- No type of the index has an empty name, or an empty string among the types nested in it. -/
def Named (x : TypeIndex) : Prop := ∀ d ∈ x.types, d.name ≠ "" ∧ "" ∉ d.nested

theorem named_ofSchema (hs : s.Named) (extra : List TypeName) : (ofSchema s extra).Named :=
  fun d hd => hs d (Schema.mem_types_of_last? (mem_types_ofSchema_iff.1 hd)).1

variable {x : TypeIndex} {blind : List TypeName} {config : Config}

theorem Named.ne_empty_of_contains (hx : x.Named) {t : TypeName} (ht : x.contains t = true) :
    t ≠ "" := by
  obtain ⟨d, hd⟩ := Option.isSome_iff_exists.1 ht
  obtain ⟨hmem, rfl⟩ := mem_types_of_find? hd
  exact (hx d hmem).1

/-- An index without empty names nests no empty name in a type. -/
theorem Named.ne_empty_of_mem_nestedIn (hx : x.Named) {parent n : TypeName}
    (hn : n ∈ x.nestedIn parent) : n ≠ "" := by
  obtain ⟨e, he, ⟨-, hmem⟩ | ⟨-, rfl⟩⟩ := mem_nestedIn_iff.1 hn
  · -- an empty entry among its nested types
    intro heq
    exact (hx e he).2 (heq ▸ hmem)
  · -- an empty name of its own
    exact (hx e he).1

/-- No type of an index without empty names references one. -/
theorem Named.ne_empty_of_leads (hx : x.Named) {u t : TypeName}
    (h : (x.context blind config).refs.Leads u t) : t ≠ "" := by
  obtain ⟨d, -, ht⟩ := exists_mentionedBy_of_leads h
  rcases mem_mentionedBy_iff.1 ht with ht | ⟨hne, -⟩
  · exact hx.ne_empty_of_mem_nestedIn ht
  · exact hne

end TypeIndex

end TypeAtlas
