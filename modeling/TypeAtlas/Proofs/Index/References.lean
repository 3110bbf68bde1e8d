import TypeAtlas.Proofs.Closure.Reachability
import TypeAtlas.Proofs.Index.Building

/-!
# The references that a schema tells

Which types a schema says a type to be connected with, in words of the schema alone. The direct
references of a type are these, less the type itself and the names of primitive types and arrays.
The constructors of a type tell nothing.

Main statement: `TypeIndex.direct_references_of_schema`.
-/

namespace TypeAtlas

open Schema

/-! ## §1 What a schema says about a type -/

/-- The schema says that the type with the description `d` is connected with the type `n`. A type
    at the top of a hierarchy is left out only where it is extended. -/
inductive Schema.Refers (s : Schema) (config : Config) (d : TypeDecl) : TypeName → Prop where
  | declaring {n : TypeName} : d.declaring = some n → Refers s config d n
  | enclosing {n : TypeName} : d.enclosing = some n → Refers s config d n
  | nested {n : TypeName} : n ∈ d.nested → Refers s config d n
  /-- Another type says to be a member of this one. -/
  | member {n : TypeName} {e : TypeDecl} :
      s.last? n = some e → e.declaring = some d.name → Refers s config d n
  | interface {n : TypeName} : n ∈ d.implements → Refers s config d n
  | supertype {n : TypeName} :
      d.extends? = some n → config.isHierarchyRoot n = false → Refers s config d n
  | result {m : MethodDecl} : m ∈ d.methods → Refers s config d m.returns
  | parameter {m : MethodDecl} {n : TypeName} : m ∈ d.methods → n ∈ m.params → Refers s config d n
  | exception {m : MethodDecl} {n : TypeName} : m ∈ d.methods → n ∈ m.throws → Refers s config d n
  | field {f : FieldDecl} : f ∈ d.fields → Refers s config d f.type

namespace TypeIndex

variable {s : Schema} {extra blind : List TypeName} {config : Config} {d : TypeDecl} {n : TypeName}

/-- The types nested in a described type are those that it names, and those that declare it. -/
theorem mem_nestedIn_ofSchema_iff_of_named (hs : s.Named) (hd : s.last? d.name = some d) :
    n ∈ (ofSchema s extra).nestedIn d.name ↔
      n ∈ d.nested ∨ ∃ e, s.last? n = some e ∧ e.declaring = some d.name := by
  have hname : d.name ≠ "" := (hs d (mem_types_of_last? hd).1).1
  simp [mem_nestedIn_ofSchema_iff hd, hname]

/-- What the index takes a description to mention is what the schema says under names that are not
    empty. -/
theorem mem_mentionedBy_ofSchema_iff (hs : s.Named) (hd : s.last? d.name = some d) :
    n ∈ (ofSchema s extra).mentionedBy config d ↔ n ≠ "" ∧ s.Refers config d n := by
  rw [mem_mentionedBy_iff]
  apply Iff.intro
  · intro hn
    rcases hn with hn | ⟨hne, heq | heq | hmem | ⟨heq, hkept⟩ | ⟨m, hm, rfl | hmem | hmem⟩ |
      ⟨f, hf, rfl⟩⟩
    · refine ⟨(named_ofSchema hs extra).ne_empty_of_mem_nestedIn hn, ?_⟩
      rcases (mem_nestedIn_ofSchema_iff_of_named hs hd).1 hn with hmem | ⟨e, he, hdeclaring⟩
      · exact .nested hmem
      · exact .member he hdeclaring
    · exact ⟨hne, .declaring heq⟩
    · exact ⟨hne, .enclosing heq⟩
    · exact ⟨hne, .interface hmem⟩
    · exact ⟨hne, .supertype heq hkept⟩
    · exact ⟨hne, .result hm⟩
    · exact ⟨hne, .parameter hm hmem⟩
    · exact ⟨hne, .exception hm hmem⟩
    · exact ⟨hne, .field hf⟩
  · intro hn
    obtain ⟨hne, hrefers⟩ := hn
    rw [mem_nestedIn_ofSchema_iff_of_named hs hd]
    cases hrefers with
    | nested hmem => exact .inl (.inl hmem)
    | member he hdeclaring => exact .inl (.inr ⟨_, he, hdeclaring⟩)
    | declaring heq => exact .inr ⟨hne, .inl heq⟩
    | enclosing heq => exact .inr ⟨hne, .inr (.inl heq)⟩
    | interface hmem => exact .inr ⟨hne, .inr (.inr (.inl hmem))⟩
    | supertype heq hkept => exact .inr ⟨hne, .inr (.inr (.inr (.inl ⟨heq, hkept⟩)))⟩
    | result hm =>
      exact .inr ⟨hne, .inr (.inr (.inr (.inr (.inl ⟨_, hm, .inl rfl⟩))))⟩
    | parameter hm hmem =>
      exact .inr ⟨hne, .inr (.inr (.inr (.inr (.inl ⟨_, hm, .inr (.inl hmem)⟩))))⟩
    | exception hm hmem =>
      exact .inr ⟨hne, .inr (.inr (.inr (.inr (.inl ⟨_, hm, .inr (.inr hmem)⟩))))⟩
    | field hf => exact .inr ⟨hne, .inr (.inr (.inr (.inr (.inr ⟨_, hf, rfl⟩))))⟩

/-- The direct references of a type that the schema describes. -/
theorem exists_refs_ofSchema (hs : s.Named) (hd : s.last? d.name = some d)
    (hblind : d.name ∉ blind) :
    ∃ rs, ((ofSchema s extra).context blind config).refs d.name = some rs ∧
      ∀ n, n ∈ rs ↔ n ≠ "" ∧ n ≠ d.name ∧ ¬ s.Reserves extra n ∧ s.Refers config d n := by
  have hfind := (find?_ofSchema s extra d.name).trans hd
  refine ⟨_, refs_context hfind hblind, ?_⟩
  intro n
  have hkept : ((ofSchema s extra).context blind config).provider.isPrimitive n = false ↔
      ¬ s.Reserves extra n := by
    rw [← isPrimitive_ofSchema_iff, Bool.not_eq_true]
    exact Iff.rfl
  rw [Context.mem_keepReferences_iff, hkept, mem_mentionedBy_ofSchema_iff hs hd]
  tauto

end TypeIndex

/-! ## §2 Constructors -/

/-- The description with other constructors: those that `f` tells for it. -/
def Schema.TypeDecl.withConstructors (f : TypeDecl → List ConstructorDecl) (d : TypeDecl) :
    TypeDecl :=
  { d with constructors := f d }

/-- The schema with other constructors. -/
def Schema.withConstructors (f : TypeDecl → List ConstructorDecl) (s : Schema) : Schema :=
  { s with types := s.types.map (TypeDecl.withConstructors f) }

namespace TypeIndex

variable {s : Schema} {extra blind : List TypeName} {config : Config}
  {f : TypeDecl → List ConstructorDecl}

theorem types_withConstructors : (ofSchema (s.withConstructors f) extra).types =
    (ofSchema s extra).types.map (TypeDecl.withConstructors f) :=
  mergeTypes_map (g := TypeDecl.withConstructors f) (fun _ => rfl) s.types

theorem find?_withConstructors (t : TypeName) : (ofSchema (s.withConstructors f) extra).find? t =
    ((ofSchema s extra).find? t).map (TypeDecl.withConstructors f) := by
  unfold find?
  rw [types_withConstructors, List.find?_map]
  rfl

theorem nestedIn_withConstructors (parent : TypeName) :
    (ofSchema (s.withConstructors f) extra).nestedIn parent =
      (ofSchema s extra).nestedIn parent := by
  unfold nestedIn
  rw [types_withConstructors, List.foldl_map]
  rfl

/-- Other constructors make no difference to direct references. -/
theorem refs_withConstructors (t : TypeName) :
    ((ofSchema (s.withConstructors f) extra).context blind config).refs t =
      ((ofSchema s extra).context blind config).refs t := by
  have hfind : (ofSchema (s.withConstructors f) extra).find? t =
      ((ofSchema s extra).find? t).map (TypeDecl.withConstructors f) := find?_withConstructors t
  by_cases hblind : t ∈ blind
  · have hnone : ∀ x : TypeIndex, (x.context blind config).refs t = none := fun x =>
      refs_context_eq_none_iff.2 fun h => h.2 hblind
    rw [hnone, hnone]
  · cases hd : (ofSchema s extra).find? t with
    | none =>
      rw [hd] at hfind
      rw [refs_context_of_find?_eq_none hd, refs_context_of_find?_eq_none hfind]
    | some d =>
      rw [hd] at hfind
      rw [refs_context hd hblind, refs_context hfind hblind]
      -- no part of what a description mentions looks at its constructors
      unfold mentionedBy
      rw [nestedIn_withConstructors]
      rfl

/-! ## §3 Direct references -/

/-- In every session that steps lead to, the direct references of a type are the other types that
    the schema, by its last description of each name, says the type to be connected with, less
    the empty name and those of primitive types and arrays. A name that the schema does not describe
    is not resolved. Constructors make no difference. -/
theorem direct_references_of_schema {schema : Schema} (hschema : schema.Named)
    (extra blind : List TypeName) (config : Config) {s : Session Unit}
    (hs : ((ofSchema schema extra).context blind config).Reached s) :
    (∀ t d, schema.last? t = some d → t ∉ blind →
      ∃ rs, ((((ofSchema schema extra).context blind config).directReferences t).run s).1 = .ok rs ∧
        ∀ u, u ∈ rs ↔
          u ≠ "" ∧ u ≠ t ∧ ¬ schema.Reserves extra u ∧ schema.Refers config d u) ∧
    (∀ t, (∀ d ∈ schema.types, d.name ≠ t) →
      ((((ofSchema schema extra).context blind config).directReferences t).run s).1 =
        .error (.unresolved t)) ∧
    ∀ f t, ((ofSchema (schema.withConstructors f) extra).context blind config).refs t =
      ((ofSchema schema extra).context blind config).refs t := by
  have hctx := lawful_context (ofSchema schema extra) blind config
  refine ⟨?_, ?_, fun _ => refs_withConstructors⟩
  · intro t d hd hblind
    obtain ⟨-, rfl⟩ := mem_types_of_last? hd
    obtain ⟨rs, hrs, hmem⟩ := exists_refs_ofSchema hschema hd hblind
    exact ⟨rs, (refs_eq_some_iff_run hs).1 hrs, hmem⟩
  · intro t ht
    have hfind : (ofSchema schema extra).find? t = none := by
      rw [find?_ofSchema, last?_eq_none_iff.2 ht]
    have hnone : ((ofSchema schema extra).context blind config).refs t = none :=
      refs_context_of_find?_eq_none hfind
    exact (Context.yields_directReferences_unresolved hctx hnone s (hs.coherent hctx)).1

/-- A type described twice, of which the second description counts, and a member of it that it does
    not name. It extends the top of the hierarchy, and has a field of that type. -/
def household : Schema where
  types := [
    { name := "A", nested := ["X"] },
    { name := "B", declaring := some "A" },
    { name := "A", extends? := some "java.lang.Object",
      fields := [{ name := "top", type := "java.lang.Object" }, { name := "n", type := "int" }],
      constructors := [{ params := ["Z"] }] }]

theorem direct_references_of_schema_household :
    ∃ rs, ((((ofSchema household []).context [] {}).directReferences "A").run
        Session.fresh).1 = .ok rs ∧
      "B" ∈ rs ∧ "java.lang.Object" ∈ rs ∧ "int" ∉ rs ∧ "X" ∉ rs ∧ "Z" ∉ rs := by
  have hnamed : household.Named := by unfold Schema.Named; decide
  obtain ⟨hrefs, -, -⟩ := direct_references_of_schema hnamed [] [] {} (s := Session.fresh) ⟨[], rfl⟩
  obtain ⟨rs, hrun, hmem⟩ := hrefs "A" household.types[2] rfl (by decide)
  have hkept : ∀ u ∈ ["B", "java.lang.Object"], ¬ household.Reserves [] u := by
    simp only [← isPrimitive_ofSchema_iff]
    decide
  -- what the schema says of `A`: nothing of the first description, nothing of the constructor
  have hsaid : ∀ u, household.Refers {} household.types[2] u →
      u ∈ ["B", "java.lang.Object", "int"] := by
    intro u hrefers
    cases hrefers with
    | declaring h => cases h
    | enclosing h => cases h
    | nested h => cases h
    | member he hdeclaring =>
      obtain ⟨hd, rfl⟩ := mem_types_of_last? he
      have hall : ∀ d ∈ household.types, d.declaring = some "A" → d.name = "B" := by decide
      rw [hall _ hd hdeclaring]
      decide
    | interface h => cases h
    | supertype h => cases h; decide
    | result h => cases h
    | parameter h => cases h
    | exception h => cases h
    | field h =>
      have hall : ∀ f ∈ household.types[2].fields,
        f.type ∈ ["B", "java.lang.Object", "int"] := by decide
      exact hall _ h
  refine ⟨rs, hrun, ?_, ?_, ?_, ?_, ?_⟩
  · exact (hmem "B").2 ⟨by decide, by decide, hkept _ (by decide),
      .member (e := household.types[1]) rfl rfl⟩
  · exact (hmem "java.lang.Object").2 ⟨by decide, by decide, hkept _ (by decide),
      .field (f := household.types[2].fields[0]) (by decide)⟩
  · exact fun h => ((hmem "int").1 h).2.2.1 (.inl (by decide))
  · exact fun h => absurd (hsaid "X" ((hmem "X").1 h).2.2.2) (by decide)
  · exact fun h => absurd (hsaid "Z" ((hmem "Z").1 h).2.2.2) (by decide)

end TypeIndex

end TypeAtlas
