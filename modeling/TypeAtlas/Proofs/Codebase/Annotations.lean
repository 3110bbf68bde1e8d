import TypeAtlas.Codebase.Provider

/-!
# The types that annotations name

A term names the classes at the end of its wrappers and unions, and generic aliases without
arguments and whatever else has an origin. What is mentioned of a term besides are primitive types
and texts with brackets, which are no references. Neither the order of the members of a union nor
the way it is spelled makes a difference, and building a union loses nothing that its parts name.

Main statements: `Term.mem_mentions_iff`, `Term.names_iff_of_same`, `Term.names_unionOf_iff`.
-/

namespace TypeAtlas.Codebase

namespace Term

variable {naming : Naming} {nameOf : ClassId → TypeName} {t t' : Term} {u : TypeName}

/-! ## §1 Names at the end of wrappers and unions -/

/-- The term names the type, outside the arguments of generic types. -/
inductive Names (nameOf : ClassId → TypeName) : Term → TypeName → Prop where
  | cls (c : ClassId) : Names nameOf (.cls c) (nameOf c)
  | bareAlias (name : String) : Names nameOf (.alias name []) ("typing." ++ name)
  | special (s : Special) : Names nameOf (.special s) s.alone
  | annotated {t : Term} {tags : Nat} {u : TypeName} :
      Names nameOf t u → Names nameOf (.annotated t tags) u
  | classVar {t : Term} {u : TypeName} : Names nameOf t u → Names nameOf (.classVar t) u
  | final {t : Term} {u : TypeName} : Names nameOf t u → Names nameOf (.final t) u
  | member {barred : Bool} {ms : List Term} {t : Term} {u : TypeName} :
      t ∈ ms → Names nameOf t u → Names nameOf (.union barred ms) u

theorem names_union_iff {barred : Bool} {ms : List Term} :
    (union barred ms).Names nameOf u ↔ ∃ t ∈ ms, t.Names nameOf u := by
  apply Iff.intro
  · intro h
    cases h with
    | member hmem ht => exact ⟨_, hmem, ht⟩
  · intro h
    obtain ⟨t, hmem, ht⟩ := h
    exact .member hmem ht

/-! ## §2 Mentions -/

theorem isPrimitive_brackets (s s' : String) : isPrimitive (s ++ "[" ++ s' ++ "]") = true := by
  simp [isPrimitive]

/-- The text of a type with arguments has a bracket in it, so it is no reference. -/
theorem isPrimitive_print_generic (nameOf : ClassId → String) (inForm builtin : Bool)
    (head : ClassId) (args : List Term) :
    isPrimitive (print nameOf inForm (.generic builtin head args)) = true := by
  rw [print.eq_def]
  exact isPrimitive_brackets _ _

theorem isPrimitive_print_alias (nameOf : ClassId → String) (inForm : Bool) (name : String)
    (arg : Term) (args : List Term) :
    isPrimitive (print nameOf inForm (.alias name (arg :: args))) = true := by
  rw [print.eq_def]
  exact isPrimitive_brackets _ _

theorem print_bareAlias (nameOf : ClassId → String) (inForm : Bool) (name : String) :
    print nameOf inForm (.alias name []) = "typing." ++ name := by
  rw [print.eq_def]

/-- The first mention of each name is kept. -/
theorem mem_distinct_iff {ms : List Mention} :
    u ∈ (Mention.distinct ms).map Mention.name ↔ u ∈ ms.map Mention.name := by
  induction ms with
  | nil => rfl
  | cons m ms ih =>
    have hrest : u ∈ ((Mention.distinct ms).filter fun n => n.name != m.name).map Mention.name ↔
        u ≠ m.name ∧ u ∈ ms.map Mention.name := by
      rw [← ih]
      simp only [List.mem_map, List.mem_filter, bne_iff_ne]
      grind
    rw [Mention.distinct, List.map_cons, List.map_cons, List.mem_cons, List.mem_cons, hrest]
    by_cases hu : u = m.name <;> simp [hu]

/-- What the absent value is mentioned as is a primitive type. -/
theorem not_mem_nothing (hu : isPrimitive u = false) :
    u ∉ [(⟨nothingTypeName, none⟩ : Mention)].map Mention.name := by
  intro h
  cases List.mem_singleton.1 h
  exact absurd hu (by decide)

mutual

/-- The types among the mentioned ones that may be references are those that the term names. -/
theorem mem_mentions_iff (t : Term) (hu : isPrimitive u = false) :
    u ∈ (t.mentions naming).map Mention.name ↔ t.Names naming.full u := by
  cases t with
  | cls c =>
    rw [mentions, List.map_singleton, List.mem_singleton]
    apply Iff.intro
    · rintro rfl
      exact .cls c
    · intro h
      cases h
      rfl
  | nothing => exact iff_of_false (not_mem_nothing hu) nofun
  | nothingType => exact iff_of_false (not_mem_nothing hu) nofun
  | annotated t tags =>
    rw [mentions, mem_mentions_iff t hu]
    exact ⟨.annotated, fun h => by cases h; assumption⟩
  | classVar t =>
    rw [mentions, mem_mentions_iff t hu]
    exact ⟨.classVar, fun h => by cases h; assumption⟩
  | final t =>
    rw [mentions, mem_mentions_iff t hu]
    exact ⟨.final, fun h => by cases h; assumption⟩
  | union barred ms =>
    have hms : u ∈ (memberMentions naming ms).map Mention.name ↔ ∃ t ∈ ms, t.Names naming.full u :=
      mem_memberMentions_iff ms hu
    rw [mentions, mem_distinct_iff, hms, names_union_iff]
  | generic builtin head args =>
    -- the one text that is mentioned has a bracket in it
    have hprint := isPrimitive_print_generic naming.short false builtin head args
    refine iff_of_false ?_ nofun
    rw [mentions, List.map_singleton, List.mem_singleton]
    rintro rfl
    exact Bool.false_ne_true (hu.symm.trans hprint)
  | «alias» name args =>
    rw [mentions, List.map_singleton, List.mem_singleton]
    cases args with
    | nil =>
      rw [print_bareAlias]
      apply Iff.intro
      · rintro rfl
        exact .bareAlias name
      · intro h
        cases h
        rfl
    | cons arg args =>
      have hprint := isPrimitive_print_alias naming.short false name arg args
      refine iff_of_false ?_ nofun
      rintro rfl
      exact Bool.false_ne_true (hu.symm.trans hprint)
  | special s =>
    rw [mentions, List.map_singleton, List.mem_singleton]
    apply Iff.intro
    · rintro rfl
      exact .special s
    · intro h
      cases h
      rfl
  | _ => exact iff_of_false (by simp [mentions]) nofun

theorem mem_memberMentions_iff (ms : List Term) (hu : isPrimitive u = false) :
    u ∈ (memberMentions naming ms).map Mention.name ↔ ∃ t ∈ ms, t.Names naming.full u := by
  cases ms with
  | nil => simp [memberMentions]
  | cons t ms =>
    have hrest := mem_memberMentions_iff ms hu
    simp only [List.mem_cons, exists_eq_or_imp, ← hrest]
    -- the class of the absent value is left out among members, and names nothing
    by_cases ht : t = .nothingType
    · subst ht
      rw [memberMentions]
      exact (or_iff_right nofun).symm
    · rw [memberMentions, List.map_append, List.mem_append, mem_mentions_iff t hu]
      exact ht

end

/-! ## §3 Terms that stand for the same -/

theorem allIn_iff {ts us : List Term} :
    allIn ts us = true ↔ ∀ t ∈ ts, ∃ u ∈ us, same t u = true := by
  induction ts with
  | nil => simp [allIn]
  | cons t ts ih => simp [allIn, ih]

theorem anySame_iff {ts : List Term} {u : Term} :
    anySame ts u = true ↔ ∃ t ∈ ts, same t u = true := by
  induction ts with
  | nil => simp [anySame]
  | cons t ts ih => simp [anySame, ih]

theorem same_union_iff {barred barred' : Bool} {ms ns : List Term} :
    same (.union barred ms) (.union barred' ns) = true ↔
      (∀ t ∈ ms, ∃ u ∈ ns, same t u = true) ∧ ∀ u ∈ ns, ∃ t ∈ ms, same t u = true := by
  simp only [same, Bool.and_eq_true, allIn_iff, List.all_eq_true, anySame_iff]

/-- A term names all that a term names which stands for the same. -/
theorem Names.of_same (h : t.Names nameOf u) (hsame : same t t' = true) : t'.Names nameOf u := by
  -- a term that stands for the same is of the same form
  induction h generalizing t' with
  | cls c =>
    cases t' <;> simp only [same, beq_iff_eq, Bool.false_eq_true] at hsame
    case cls c' =>
      subst hsame
      exact .cls c
  | bareAlias name =>
    cases t' <;> simp only [same, Bool.and_eq_true, beq_iff_eq, Bool.false_eq_true] at hsame
    case «alias» name' args =>
      obtain ⟨rfl, hargs⟩ := hsame
      cases args with
      | nil => exact .bareAlias name
      | cons arg args => simp [sameAll] at hargs
  | special s =>
    cases t' <;> simp only [same, beq_iff_eq, Bool.false_eq_true] at hsame
    case special s' =>
      subst hsame
      exact .special s
  | annotated _ ih =>
    cases t' <;> simp only [same, Bool.and_eq_true, Bool.false_eq_true] at hsame
    case annotated => exact .annotated (ih hsame.1)
  | classVar _ ih =>
    cases t' <;> simp only [same, Bool.false_eq_true] at hsame
    case classVar => exact .classVar (ih hsame)
  | final _ ih =>
    cases t' <;> simp only [same, Bool.false_eq_true] at hsame
    case final => exact .final (ih hsame)
  | member hmem _ ih =>
    cases t'
    case union barred' ns =>
      obtain ⟨n, hn, hsame⟩ := (same_union_iff.1 hsame).1 _ hmem
      exact .member hn (ih hsame)
    all_goals simp [same] at hsame

mutual

@[simp] theorem same_refl (t : Term) : same t t = true := by
  cases t with
  | union barred ms =>
    have hmem := forall_mem_same_refl ms
    exact same_union_iff.2 ⟨fun t ht => ⟨t, ht, hmem t ht⟩, fun t ht => ⟨t, ht, hmem t ht⟩⟩
  | annotated t tags => simp [same, same_refl t]
  | classVar t => simp [same, same_refl t]
  | final t => simp [same, same_refl t]
  | generic builtin head args => simp [same, sameAll_refl args]
  | «alias» name args => simp [same, sameAll_refl args]
  | _ => simp [same]

theorem sameAll_refl (ts : List Term) : sameAll ts ts = true := by
  cases ts with
  | nil => simp [sameAll]
  | cons t ts => simp [sameAll, same_refl t, sameAll_refl ts]

theorem forall_mem_same_refl (ts : List Term) : ∀ t ∈ ts, same t t = true := by
  cases ts with
  | nil => exact fun _ h => nomatch h
  | cons t ts => exact List.forall_mem_cons.2 ⟨same_refl t, forall_mem_same_refl ts⟩

end

mutual

theorem same_symm (t u : Term) (h : same t u = true) : same u t = true := by
  cases t with
  | union barred ms =>
    cases u
    case union barred' ns =>
      have hback := forall_mem_same_symm ms
      obtain ⟨hforth, hall⟩ := same_union_iff.1 h
      -- either side of the condition turns into the other one
      refine same_union_iff.2 ⟨?_, ?_⟩
      · intro n hn
        obtain ⟨m, hm, hsame⟩ := hall n hn
        exact ⟨m, hm, hback m hm n hsame⟩
      · intro m hm
        obtain ⟨n, hn, hsame⟩ := hforth m hm
        exact ⟨n, hn, hback m hm n hsame⟩
    all_goals simp [same] at h
  | annotated t tags =>
    cases u <;> simp only [same, Bool.and_eq_true, beq_iff_eq, Bool.false_eq_true] at h
    case annotated u tags' => simp [same, same_symm t u h.1, h.2]
  | classVar t =>
    cases u <;> simp only [same, Bool.false_eq_true] at h
    case classVar u => simp [same, same_symm t u h]
  | final t =>
    cases u <;> simp only [same, Bool.false_eq_true] at h
    case final u => simp [same, same_symm t u h]
  | generic builtin head args =>
    cases u <;> simp only [same, Bool.and_eq_true, beq_iff_eq, Bool.false_eq_true] at h
    case generic builtin' head' args' => simp [same, sameAll_symm args args' h.2, h.1]
  | «alias» name args =>
    cases u <;> simp only [same, Bool.and_eq_true, beq_iff_eq, Bool.false_eq_true] at h
    case «alias» name' args' => simp [same, sameAll_symm args args' h.2, h.1]
  | _ => cases u <;> simp_all [same]

theorem sameAll_symm (ts us : List Term) (h : sameAll ts us = true) : sameAll us ts = true := by
  cases ts with
  | nil =>
    cases us with
    | nil => exact h
    | cons u us => simp [sameAll] at h
  | cons t ts =>
    cases us with
    | nil => simp [sameAll] at h
    | cons u us =>
      simp only [sameAll, Bool.and_eq_true] at h ⊢
      exact ⟨same_symm t u h.1, sameAll_symm ts us h.2⟩

theorem forall_mem_same_symm (ts : List Term) :
    ∀ t ∈ ts, ∀ u, same t u = true → same u t = true := by
  cases ts with
  | nil => exact fun _ h => nomatch h
  | cons t ts => exact List.forall_mem_cons.2 ⟨same_symm t, forall_mem_same_symm ts⟩

end

/-- Terms that stand for the same name the same types. -/
theorem names_iff_of_same (hsame : same t t' = true) : t.Names nameOf u ↔ t'.Names nameOf u :=
  ⟨fun h => h.of_same hsame, fun h => h.of_same (same_symm _ _ hsame)⟩

/-! ## §4 Building unions -/

theorem exists_names_distinct_iff (ts : List Term) :
    (∃ t ∈ distinct ts, t.Names nameOf u) ↔ ∃ t ∈ ts, t.Names nameOf u := by
  induction ts with
  | nil => rfl
  | cons t ts ih =>
    simp only [distinct, List.mem_cons, exists_eq_or_imp, List.mem_filter, ← ih]
    apply Iff.intro
    · rintro (ht | ⟨s, ⟨hs, -⟩, hnames⟩)
      · exact .inl ht
      · exact .inr ⟨s, hs, hnames⟩
    · rintro (ht | ⟨s, hs, hnames⟩)
      · exact .inl ht
      · -- a member that is left out stands for the same as the one that is kept
        by_cases hsame : same t s = true
        · exact .inl ((names_iff_of_same hsame).2 hnames)
        · exact .inr ⟨s, ⟨hs, by simpa using hsame⟩, hnames⟩

theorem exists_names_members_iff (t : Term) :
    (∃ m ∈ t.members, m.Names nameOf u) ↔ t.Names nameOf u := by
  cases t with
  | union barred ms => exact names_union_iff.symm
  | _ => simp [members]

/-- A union names what the terms name that it is built of, in whatever order they come. -/
theorem names_unionOf_iff {barred : Bool} {ts : List Term} (h : unionOf barred ts = some t) :
    t.Names nameOf u ↔ ∃ s ∈ ts, s.Names nameOf u := by
  have hparts : (∃ m ∈ distinct (ts.flatMap members), m.Names nameOf u) ↔
      ∃ s ∈ ts, s.Names nameOf u := by
    rw [exists_names_distinct_iff]
    apply Iff.intro
    · rintro ⟨m, hm, hnames⟩
      obtain ⟨s, hs, hms⟩ := List.mem_flatMap.1 hm
      exact ⟨s, hs, (exists_names_members_iff s).1 ⟨m, hms, hnames⟩⟩
    · rintro ⟨s, hs, hnames⟩
      obtain ⟨m, hms, hm⟩ := (exists_names_members_iff s).2 hnames
      exact ⟨m, List.mem_flatMap.2 ⟨s, hs, hms⟩, hm⟩
  rw [← hparts]
  -- no part makes no union, one part is no union, and more of them make one
  unfold unionOf at h
  split at h
  case h_1 => cases h
  case h_2 s hone =>
    cases h
    rw [hone]
    simp
  case h_3 =>
    cases h
    exact names_union_iff

end Term

end TypeAtlas.Codebase
