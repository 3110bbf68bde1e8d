import TypeAtlas.Proofs.Index.References

/-!
# Names that are described more than once

A schema may describe a name more than once, and may tell of nested types from both sides. The index
is the same as if each name were described once, at its first place and in the words of its last
description, and nothing that an earlier description says is left in it.

Main statement: `TypeIndex.duplicates_leave_no_trace`.
-/

namespace TypeAtlas

open Schema

/-! ## §1 Each name described once -/

/-- The schema with one description for each name: at the place of the first one stands the last. -/
def Schema.deduplicated (s : Schema) : Schema :=
  { s with types := (s.types.map TypeDecl.name).eraseDups.filterMap s.last? }

namespace TypeIndex

variable {s : Schema} {extra : List TypeName}

theorem types_deduplicated (s : Schema) : s.deduplicated.types = mergeTypes s.types := by
  calc s.deduplicated.types
      = ((mergeTypes s.types).map TypeDecl.name).filterMap s.last? := by
        rw [map_name_mergeTypes]
        rfl
    _ = ((mergeTypes s.types).map TypeDecl.name).filterMap
          fun n => (mergeTypes s.types).find? fun e => e.name == n := by
        -- what is found for a name is its last description
        apply List.filterMap_congr
        intro n _
        exact (find?_mergeTypes s.types n).symm
    _ = mergeTypes s.types := filterMap_find?_of_nodup (nodup_names_mergeTypes s.types)

/-- The index is that of the schema that describes each name once. -/
theorem ofSchema_deduplicated (s : Schema) (extra : List TypeName) :
    ofSchema s.deduplicated extra = ofSchema s extra := by
  have htypes : mergeTypes s.deduplicated.types = mergeTypes s.types := by
    rw [types_deduplicated, mergeTypes_of_nodup (nodup_names_mergeTypes s.types)]
  unfold ofSchema
  rw [htypes]
  rfl

/-! ## §2 Nested types -/

variable {x : TypeIndex}

theorem run_nestedTypes {t : TypeName} {d : TypeDecl} (hd : x.find? t = some d) :
    (x.provider.nestedTypes t).run () = (.ok (x.nestedIn t), ()) := by
  obtain ⟨-, rfl⟩ := mem_types_of_find? hd
  exact run_unlessBlind_describing _ hd List.not_mem_nil

/-- A type is declared by the one that its description names, unless this is the empty string. -/
theorem run_declaringType_eq_some_iff {t u : TypeName} :
    ((x.provider.declaringType u).run ()).1 = .ok (some t) ↔
      t ≠ "" ∧ ∃ e, x.find? u = some e ∧ e.declaring = some t := by
  cases he : x.find? u with
  | none =>
    have hnot : ¬ x.Describes [] u := by simp [describes_iff_exists_find?, he]
    have hrun : (x.provider.declaringType u).run () = (.error (.unresolved u), ()) :=
      run_unlessBlind_describing_of_not _ hnot
    simp [hrun]
  | some e =>
    have hrun : (x.provider.declaringType u).run () = (.ok (e.declaring.bind nonempty?), ()) :=
      run_unlessBlind_describing _ he List.not_mem_nil
    simp [hrun, bind_nonempty?_eq_some_iff]

/-! ## §3 Members and their declaring types -/

section Members

variable {blind : List TypeName} {config : Config} {t u : TypeName} {d e : TypeDecl}

/-- A type that is described references the type that declares it. -/
theorem leads_declaring (he : x.find? u = some e) (hu : u ∉ blind) (hne : t ≠ "")
    (hdeclaring : e.declaring = some t) (htu : t ≠ u) (ht : x.isPrimitive t = false) :
    (x.context blind config).refs.Leads u t := by
  refine ⟨_, refs_context he hu, Context.mem_keepReferences_iff.2 ⟨?_, ht, htu⟩⟩
  exact mem_mentionedBy_iff.2 (.inr ⟨hne, .inl hdeclaring⟩)

/-- A type that is described references those that declare it. -/
theorem leads_member (hd : x.find? t = some d) (ht : t ∉ blind) (hmem : u ∈ x.nestedIn t)
    (htu : t ≠ u) (hu : x.isPrimitive u = false) : (x.context blind config).refs.Leads t u := by
  refine ⟨_, refs_context hd ht, Context.mem_keepReferences_iff.2 ⟨?_, hu, htu.symm⟩⟩
  -- what is nested in a type is mentioned by it
  obtain ⟨-, rfl⟩ := mem_types_of_find? hd
  exact mem_mentionedBy_iff.2 (.inl hmem)

end Members

/-! ## §4 Schemas with duplicates -/

/-- The index has merged what a schema says of each name. -/
structure Merges (x : TypeIndex) (schema : Schema) : Prop where
  /-- The names stand in the order of their first descriptions, each of them once. -/
  names : x.names = (schema.types.map TypeDecl.name).eraseDups
  /-- A name has its last description. -/
  last : ∀ t, x.find? t = schema.last? t
  /-- The types nested in a type are those that its description names and those that declare it,
      each of them once. What declares the empty name declares nothing. -/
  nested : ∀ t d, schema.last? t = some d →
    ∃ ns, (x.provider.nestedTypes t).run () = (.ok ns, ()) ∧ ns.Nodup ∧
      ∀ n, n ∈ ns ↔ n ∈ d.nested ∨ t ≠ "" ∧ ∃ e, schema.last? n = some e ∧ e.declaring = some t
  /-- A type is nested in the one that declares it. -/
  member : ∀ t u, x.contains t = true → ((x.provider.declaringType u).run ()).1 = .ok (some t) →
    ∃ ns, (x.provider.nestedTypes t).run () = (.ok ns, ()) ∧ u ∈ ns
  /-- The two reference each other, if they are not the same and none of them is primitive or an
      array. A session tells this of each of them that it is not blind to. -/
  references : ∀ blind config s, (x.context blind config).Reached s → ∀ t u, x.contains t = true →
    ((x.provider.declaringType u).run ()).1 = .ok (some t) → t ≠ u →
    x.isPrimitive t = false → x.isPrimitive u = false →
    (u ∉ blind →
      ∃ rs, (((x.context blind config).directReferences u).run s).1 = .ok rs ∧ t ∈ rs) ∧
    (t ∉ blind →
      ∃ rs, (((x.context blind config).directReferences t).run s).1 = .ok rs ∧ u ∈ rs)

theorem mem_nestedIn_of_declaringType {t u : TypeName}
    (ht : (ofSchema s extra).contains t = true)
    (hu : (((ofSchema s extra).provider.declaringType u).run ()).1 = .ok (some t)) :
    u ∈ (ofSchema s extra).nestedIn t := by
  obtain ⟨d, hd⟩ := Option.isSome_iff_exists.1 ht
  obtain ⟨hne, e, he, hdeclaring⟩ := run_declaringType_eq_some_iff.1 hu
  rw [find?_ofSchema] at hd he
  obtain ⟨-, rfl⟩ := Schema.mem_types_of_last? hd
  exact (mem_nestedIn_ofSchema_iff hd).2 (.inr ⟨hne, e, he, hdeclaring⟩)

theorem merges_ofSchema (schema : Schema) (extra : List TypeName) :
    (ofSchema schema extra).Merges schema where
  names := map_name_mergeTypes schema.types
  last := find?_ofSchema schema extra
  nested t d hd := by
    refine ⟨_, run_nestedTypes ((find?_ofSchema schema extra t).trans hd), nodup_nestedIn _ t, ?_⟩
    obtain ⟨-, rfl⟩ := Schema.mem_types_of_last? hd
    exact fun n => mem_nestedIn_ofSchema_iff hd
  member t u ht hu := by
    obtain ⟨d, hd⟩ := Option.isSome_iff_exists.1 ht
    exact ⟨_, run_nestedTypes hd, mem_nestedIn_of_declaringType ht hu⟩
  references blind config s hs t u ht hu hne hprimitive hprimitive' := by
    obtain ⟨d, hd⟩ := Option.isSome_iff_exists.1 ht
    obtain ⟨hname, e, he, hdeclaring⟩ := run_declaringType_eq_some_iff.1 hu
    apply And.intro
    · intro hblind
      obtain ⟨rs, hrs, hmem⟩ := leads_declaring he hblind hname hdeclaring hne hprimitive
      exact ⟨rs, (refs_eq_some_iff_run hs).1 hrs, hmem⟩
    · intro hblind
      obtain ⟨rs, hrs, hmem⟩ :=
        leads_member hd hblind (mem_nestedIn_of_declaringType ht hu) hne hprimitive'
      exact ⟨rs, (refs_eq_some_iff_run hs).1 hrs, hmem⟩

/-- The index of a schema, which may describe a name more than once, merges what the schema says of
    each name. It is the index of the schema that says only the last of it, at the place of the
    first, so no answer shows any trace of the other descriptions. -/
theorem duplicates_leave_no_trace (schema : Schema) (extra : List TypeName) :
    (ofSchema schema extra).Merges schema ∧
      ofSchema schema extra = ofSchema schema.deduplicated extra :=
  ⟨merges_ofSchema schema extra, (ofSchema_deduplicated schema extra).symm⟩

/-- In the household `A` is described twice, and only the first description nests `X` in it. -/
theorem duplicates_leave_no_trace_household :
    (ofSchema household []).names = ["A", "B"] ∧
      ∃ ns, ((ofSchema household []).provider.nestedTypes "A").run () = (.ok ns, ()) ∧
        "B" ∈ ns ∧ "X" ∉ ns ∧
        ∃ rs, ((((ofSchema household []).context [] {}).directReferences "B").run
          Session.fresh).1 = .ok rs ∧ "A" ∈ rs := by
  obtain ⟨hmerges, -⟩ := duplicates_leave_no_trace household []
  obtain ⟨ns, hrun, -, hmem⟩ := hmerges.nested "A" household.types[2] rfl
  have hX : household.last? "X" = none := rfl
  refine ⟨hmerges.names.trans (by decide), ns, hrun, ?_, ?_, ?_⟩
  · exact (hmem "B").2 (.inr ⟨by decide, household.types[1], rfl, rfl⟩)
  · intro h
    rcases (hmem "X").1 h with h | ⟨-, e, he, -⟩
    · cases h
    · rw [hX] at he
      cases he
  · exact (hmerges.references [] {} Session.fresh ⟨[], rfl⟩ "A" "B" rfl rfl (by decide) (by decide)
      (by decide)).1 List.not_mem_nil

/-- A type with an empty name, and another type that declares the empty name. -/
def nameless : Schema where
  types := [{ name := "" }, { name := "S", declaring := some "" }]

/-- The type with the empty name has no members, not even those that declare the empty name. -/
theorem not_nested_in_nameless :
    ¬ ∀ (schema : Schema) (extra : List TypeName) (t : TypeName) (d : TypeDecl),
      schema.last? t = some d →
      ∃ ns, ((ofSchema schema extra).provider.nestedTypes t).run () = (.ok ns, ()) ∧
        ∀ n, n ∈ ns ↔ n ∈ d.nested ∨ ∃ e, schema.last? n = some e ∧ e.declaring = some t := by
  intro h
  obtain ⟨ns, hrun, hmem⟩ := h nameless [] "" nameless.types[0] rfl
  have hnone : ((ofSchema nameless []).provider.nestedTypes "").run () = (.ok [], ()) := rfl
  rw [hnone] at hrun
  cases hrun
  have hS : "S" ∈ ([] : List TypeName) := (hmem "S").2 (.inr ⟨nameless.types[1], rfl, rfl⟩)
  cases hS

end TypeIndex

end TypeAtlas
