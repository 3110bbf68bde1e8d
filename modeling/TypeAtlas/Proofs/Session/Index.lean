import TypeAtlas.Index
import TypeAtlas.Proofs.Session.Gain

/-!
# Contexts over an index

A context whose provider is an index, blind to some of its types or to none. What it describes is
read off the index: `TypeIndex.refs_context` gives the direct references, and
`TypeIndex.lawful_context` says that the theory of sessions applies to it.
-/

namespace TypeAtlas

open Schema

namespace TypeIndex

/-! ## §1 What a description mentions -/

/-- A session's context over an index, blind to the given types. -/
def context (x : TypeIndex) (blind : List TypeName) (config : Config) : Context Unit :=
  { provider := x.provider.blinding blind, config }

/-- Whether a type can be described: it is one of the index, and none of the blind ones. -/
def Describes (x : TypeIndex) (blind : List TypeName) (t : TypeName) : Prop :=
  x.contains t = true ∧ t ∉ blind

/-- All types that a description of the index mentions. -/
def mentionedBy (x : TypeIndex) (config : Config) (d : TypeDecl) : List TypeName :=
  (d.declaring.bind nonempty?).toList ++ x.nestedIn d.name ++ d.implements.filter (· != "") ++
    (d.extends?.bind nonempty?).toList.filter (fun n => !config.isHierarchyRoot n) ++
    (enclosingOf d).toList ++ (methodsOf d).flatMap Method.mentioned ++
    (fieldsOf d).flatMap Field.mentioned

variable {x : TypeIndex} {blind : List TypeName} {config : Config}

/-- A question about the description of a type that is not a blind one is answered from it. -/
theorem run_unlessBlind_describing {α : Type} (answer : TypeDecl → α) {t : TypeName} {d : TypeDecl}
    (hd : x.find? t = some d) (hblind : t ∉ blind) :
    (Provider.unlessBlind blind (x.describing answer) t).run () = (.ok (answer d), ()) := by
  have hb : blind.contains t = false := by simpa using hblind
  unfold Provider.unlessBlind describing
  simp only [hb, hd]
  rfl

/-- A question about the description of a type that has none fails on the type. -/
theorem run_unlessBlind_describing_of_not {α : Type} (answer : TypeDecl → α) {t : TypeName}
    (ht : ¬ x.Describes blind t) :
    (Provider.unlessBlind blind (x.describing answer) t).run () =
      (.error (.unresolved t), ()) := by
  unfold Provider.unlessBlind
  by_cases hb : blind.contains t = true
  · -- a blind type is not even looked up
    rw [if_pos hb]
    rfl
  · have hblind : t ∉ blind := by simpa using hb
    have hcontains : ¬ x.contains t = true := fun hx => ht ⟨hx, hblind⟩
    have hnone : x.find? t = none := by simpa [contains] using hcontains
    rw [if_neg hb]
    unfold describing
    rw [hnone]
    rfl

theorem run_mentioned_context {t : TypeName} {d : TypeDecl} (hd : x.find? t = some d)
    (hblind : t ∉ blind) :
    ((x.context blind config).mentioned t).run () = (.ok (x.mentionedBy config d), ()) := by
  have hb : blind.contains t = false := by simpa using hblind
  unfold Context.mentioned context Provider.blinding Provider.unlessBlind
  simp only [provider, describing, hb, hd]
  rfl

/-- The description of a type that has none fails at its first question. -/
theorem run_mentioned_context_of_not {t : TypeName} (ht : ¬ x.Describes blind t) :
    ((x.context blind config).mentioned t).run () = (.error (.unresolved t), ()) := by
  have hfirst : ((x.context blind config).provider.declaringType t).run () =
      (.error (.unresolved t), ()) :=
    run_unlessBlind_describing_of_not _ ht
  unfold Context.mentioned
  exact Asking.run_bind_of_error hfirst

theorem describes_iff_exists_find? {t : TypeName} :
    x.Describes blind t ↔ t ∉ blind ∧ ∃ d, x.find? t = some d := by
  unfold Describes contains
  rw [Option.isSome_iff_exists, and_comm]

/-- The direct references of a type that can be described are the kept ones of those mentioned. -/
theorem refs_context {t : TypeName} {d : TypeDecl} (hd : x.find? t = some d)
    (hblind : t ∉ blind) :
    (x.context blind config).refs t =
      some ((x.context blind config).keepReferences t (x.mentionedBy config d)) := by
  rw [Context.refs_eq, run_mentioned_context hd hblind]
  rfl

theorem refs_context_eq_none_iff {t : TypeName} :
    (x.context blind config).refs t = none ↔ ¬ x.Describes blind t := by
  apply Iff.intro
  · intro hnone ht
    obtain ⟨hblind, d, hd⟩ := describes_iff_exists_find?.1 ht
    rw [refs_context hd hblind] at hnone
    cases hnone
  · intro ht
    rw [Context.refs_eq, run_mentioned_context_of_not ht]
    rfl

theorem refs_context_of_find?_eq_none {t : TypeName} (ht : x.find? t = none) :
    (x.context blind config).refs t = none := by
  apply refs_context_eq_none_iff.2
  intro h
  obtain ⟨-, d, hd⟩ := describes_iff_exists_find?.1 h
  cases ht.symm.trans hd

/-- A type has direct references exactly when it can be described. -/
theorem exists_refs_context_iff {t : TypeName} :
    (∃ rs, (x.context blind config).refs t = some rs) ↔ x.Describes blind t := by
  rw [← Option.isSome_iff_exists, Option.isSome_iff_ne_none, ne_eq, refs_context_eq_none_iff,
    not_not]

/-! ## §2 Names -/

theorem mem_addNew {ns : List TypeName} {m n : TypeName} :
    n ∈ addNew ns m ↔ n ∈ ns ∨ n = m := by
  unfold addNew
  split
  case isTrue hm =>
    have hmem : m ∈ ns := by simpa using hm
    apply (or_iff_left_of_imp _).symm
    intro heq
    rw [heq]
    exact hmem
  case isFalse => simp

theorem mem_foldl_addNew {ns ms : List TypeName} {n : TypeName} :
    n ∈ ms.foldl addNew ns ↔ n ∈ ns ∨ n ∈ ms := by
  induction ms generalizing ns with
  | nil => simp
  | cons m ms ih => rw [List.foldl_cons, ih, mem_addNew, List.mem_cons, or_assoc]

theorem contains_iff_mem_names {n : TypeName} : x.contains n = true ↔ n ∈ x.names := by
  unfold contains find? names
  rw [List.find?_isSome, List.mem_map]
  simp only [beq_iff_eq]

/-- A name stands for no types but those of the index. -/
theorem contains_of_mem_search {query : String} {n : TypeName} (h : n ∈ x.search query) :
    x.contains n = true := by
  unfold search at h
  dsimp only at h
  split at h
  case isTrue hword =>
    cases List.mem_singleton.1 h
    exact hword
  case isFalse =>
    rw [contains_iff_mem_names]
    split at h
    case h_1 =>
      unfold distinct withSimpleName at h
      rw [mem_foldl_addNew, List.mem_append] at h
      rcases h.resolve_left List.not_mem_nil with hmem | hmem
      · exact (List.mem_filter.1 hmem).1
      · exact (List.mem_filter.1 hmem).1
    case h_2 => exact (List.mem_filter.1 h).1

/-- What one description says about the types nested in a type. -/
def Nests (d : TypeDecl) (parent n : TypeName) : Prop :=
  (d.name = parent ∧ n ∈ d.nested) ∨ (d.declaring.bind nonempty? = some parent ∧ n = d.name)

theorem mem_addNested {parent n : TypeName} {ns : List TypeName} {d : TypeDecl} :
    n ∈ addNested parent ns d ↔ n ∈ ns ∨ Nests d parent n := by
  unfold addNested Nests
  by_cases hname : d.name = parent
  · -- the words of the parent itself
    subst hname
    by_cases hdecl : d.declaring.bind nonempty? = some d.name
    · simp [hdecl, mem_addNew, mem_foldl_addNew, or_assoc]
    · simp [hdecl, mem_foldl_addNew]
  · -- another type, which may declare the parent as the one that it is a member of
    by_cases hdecl : d.declaring.bind nonempty? = some parent
    · simp [hname, hdecl, mem_addNew]
    · simp [hname, hdecl]

/-- The types nested in a type are those that its description names, and those that declare it as
    the type that they are members of. -/
theorem mem_nestedIn_iff {parent n : TypeName} :
    n ∈ x.nestedIn parent ↔ ∃ d ∈ x.types, Nests d parent n := by
  have key : ∀ (ds : List TypeDecl) (ns : List TypeName),
      n ∈ ds.foldl (addNested parent) ns ↔ n ∈ ns ∨ ∃ d ∈ ds, Nests d parent n := by
    intro ds
    induction ds with
    | nil => simp
    | cons d ds ih =>
      intro ns
      rw [List.foldl_cons, ih, mem_addNested, or_assoc]
      simp
  unfold nestedIn
  rw [key]
  simp

theorem nonempty?_eq_some_iff {s n : String} : nonempty? s = some n ↔ n ≠ "" ∧ s = n := by
  unfold nonempty?
  by_cases hs : s = ""
  · simp [hs, eq_comm]
  · simp only [if_neg hs, Option.some.injEq]
    apply Iff.intro
    · intro h
      subst h
      exact ⟨hs, rfl⟩
    · exact fun h => h.2

theorem bind_nonempty?_eq_some_iff {o : Option String} {n : TypeName} :
    o.bind nonempty? = some n ↔ n ≠ "" ∧ o = some n := by
  cases o with
  | none => simp
  | some s => simpa using nonempty?_eq_some_iff

/-- The types that the methods of a description name. -/
theorem mem_flatMap_methodsOf_iff {d : TypeDecl} {n : TypeName} :
    n ∈ (methodsOf d).flatMap Method.mentioned ↔
      n ≠ "" ∧ ∃ m ∈ d.methods, n = m.returns ∨ n ∈ m.params ∨ n ∈ m.throws := by
  simp only [methodsOf, Method.mentioned, List.append_nil, List.flatMap_map, List.mem_flatMap,
    List.mem_append, Option.mem_toList, List.mem_filterMap, List.mem_map, List.mem_filter,
    exists_exists_and_eq_and, id_eq, nonempty?_eq_some_iff, bne_iff_ne]
  grind

/-- The types that the fields of a description name. -/
theorem mem_flatMap_fieldsOf_iff {d : TypeDecl} {n : TypeName} :
    n ∈ (fieldsOf d).flatMap Field.mentioned ↔ n ≠ "" ∧ ∃ f ∈ d.fields, f.type = n := by
  simp only [fieldsOf, Field.mentioned, List.append_nil, List.flatMap_map, List.mem_flatMap,
    Option.mem_toList, nonempty?_eq_some_iff]
  grind

/-- What a description mentions are the types nested in its own, and names that stand in it. -/
theorem mem_mentionedBy_iff {d : TypeDecl} {n : TypeName} :
    n ∈ x.mentionedBy config d ↔
      n ∈ x.nestedIn d.name ∨
      n ≠ "" ∧
        (d.declaring = some n ∨ d.enclosing = some n ∨ n ∈ d.implements ∨
          (d.extends? = some n ∧ config.isHierarchyRoot n = false) ∨
          (∃ m ∈ d.methods, n = m.returns ∨ n ∈ m.params ∨ n ∈ m.throws) ∨
          ∃ f ∈ d.fields, f.type = n) := by
  unfold mentionedBy enclosingOf
  simp only [List.mem_append, Option.mem_toList, List.mem_filter, bind_nonempty?_eq_some_iff,
    Option.or_eq_some_iff, mem_flatMap_methodsOf_iff, mem_flatMap_fieldsOf_iff, bne_iff_ne,
    Bool.not_eq_true']
  grind

/-- Every type that a description of the index mentions is a name in the index. -/
theorem mem_mentions_of_mem_mentionedBy {d : TypeDecl} (hd : d ∈ x.types) {n : TypeName}
    (hn : n ∈ x.mentionedBy config d) : n ∈ x.types.flatMap mentions := by
  rcases mem_mentionedBy_iff.1 hn with hn | ⟨-, hn⟩
  · -- a nested type, by its own description or by the one around it
    obtain ⟨e, he, ⟨-, hmem⟩ | ⟨-, rfl⟩⟩ := mem_nestedIn_iff.1 hn
    · exact List.mem_flatMap.2 ⟨e, he, by simp [mentions, hmem]⟩
    · exact List.mem_flatMap.2 ⟨e, he, by simp [mentions]⟩
  · -- a name that stands in the description itself
    refine List.mem_flatMap.2 ⟨d, hd, ?_⟩
    simp only [mentions, List.mem_cons, List.mem_append, Option.mem_toList, List.mem_flatMap,
      List.mem_map, or_assoc]
    grind

theorem mem_types_of_find? {t : TypeName} {d : TypeDecl} (h : x.find? t = some d) :
    d ∈ x.types ∧ d.name = t := by
  unfold find? at h
  exact ⟨List.mem_of_find?_eq_some h, by simpa using List.find?_some h⟩

/-- A reference of a type is mentioned by a description of the index. -/
theorem exists_mentionedBy_of_leads {u t : TypeName}
    (h : (x.context blind config).refs.Leads u t) : ∃ d ∈ x.types, t ∈ x.mentionedBy config d := by
  obtain ⟨rs, hrs, ht⟩ := h
  obtain ⟨hblind, d, hd⟩ := describes_iff_exists_find?.1 (exists_refs_context_iff.1 ⟨rs, hrs⟩)
  cases hrs.symm.trans (refs_context hd hblind)
  exact ⟨d, (mem_types_of_find? hd).1, (Context.mem_keepReferences_iff.1 ht).1⟩

/-- The theory of sessions applies to contexts over an index. -/
theorem lawful_context (x : TypeIndex) (blind : List TypeName) (config : Config) :
    (x.context blind config).Lawful where
  silent t ht := run_mentioned_context_of_not (refs_context_eq_none_iff.1 ht)
  mute t ht := run_unlessBlind_describing_of_not methodsOf (refs_context_eq_none_iff.1 ht)
  members t rs hrs := by
    obtain ⟨hblind, d, hd⟩ := describes_iff_exists_find?.1 (exists_refs_context_iff.1 ⟨rs, hrs⟩)
    refine ⟨⟨methodsOf d, ?_⟩, ⟨fieldsOf d, ?_⟩, ⟨constructorsOf d, ?_⟩⟩
    · exact congrArg Prod.fst (run_unlessBlind_describing methodsOf hd hblind)
    · exact congrArg Prod.fst (run_unlessBlind_describing fieldsOf hd hblind)
    · exact congrArg Prod.fst (run_unlessBlind_describing constructorsOf hd hblind)
  ample := by
    refine ⟨x.types.flatMap mentions, Nat.le_refl _, ?_⟩
    intro u t hlead
    obtain ⟨d, hd, ht⟩ := exists_mentionedBy_of_leads hlead
    exact mem_mentions_of_mem_mentionedBy hd ht

/-- A small index: `A` and `B` reference each other, and `B` references `C`. -/
def ring : TypeIndex where
  version := "1.0"
  metadata := []
  primitives := ∅
  types := [{ name := "A", implements := ["B"] }, { name := "B", implements := ["A", "C"] },
    { name := "C" }]

end TypeIndex

end TypeAtlas
