import TypeAtlas.Proofs.Codebase.References
import TypeAtlas.Proofs.Ordered.FirstOccurrences

/-!
# What annotations are flattened to

The types that an annotation names stand at its leaves, which are reached through wrappers and
unions alone. Each of them is named once, at its first place. A generic type with its arguments is a
leaf, and named by its text, which is primitive. So is the absent value, unless it is itself a
member of a union. Whatever else has an origin goes astray: a generic alias without arguments, say,
is no class and yet named, which is not what is said of it.

Main statements: `Term.map_name_mentions` and `annotations_are_flattened`.
-/

namespace TypeAtlas.Codebase

namespace Term

variable {naming : Naming} {t : Term}

/-! ## §1 Leaves -/

mutual

/-- The leaves of a term, from left to right. -/
def leaves : Term → List Term
  | .annotated t _ => leaves t
  | .classVar t => leaves t
  | .final t => leaves t
  | .union _ ms => memberLeaves ms
  | t => [t]

/-- The leaves of the members of a union. The absent value is no leaf as a member. -/
def memberLeaves : List Term → List Term
  | [] => []
  | .nothing :: ms => memberLeaves ms
  | .nothingType :: ms => memberLeaves ms
  | t :: ms => leaves t ++ memberLeaves ms

end

/-- The name that a generic type with arguments goes by. -/
def placeholder? (naming : Naming) : Term → Option TypeName
  | .generic builtin head args => some (print naming.short false (.generic builtin head args))
  | .alias name (arg :: args) => some (print naming.short false (.alias name (arg :: args)))
  | _ => none

/-- What is said that a leaf names: a class, the class of the absent value, or a generic type with
    its arguments. Anything else names nothing. -/
def documented? (naming : Naming) : Term → Option TypeName
  | .cls c => some (naming.full c)
  | .special .genericBase => some Special.genericBase.text
  | .nothing => some nothingTypeName
  | .nothingType => some nothingTypeName
  | t => t.placeholder? naming

/-- The name of a leaf that has an origin without being a generic type with arguments. -/
def stray? : Term → Option TypeName
  | .alias name [] => some ("typing." ++ name)
  | .special s => some s.alone
  | _ => none

/-- What a leaf names. -/
def named? (naming : Naming) (t : Term) : Option TypeName := t.stray?.or (t.documented? naming)

/-- Whether a term is a leaf by itself. -/
def isLeaf : Term → Bool
  | .annotated _ _ => false
  | .classVar _ => false
  | .final _ => false
  | .union _ _ => false
  | _ => true

theorem leaves_of_isLeaf (ht : t.isLeaf = true) : t.leaves = [t] := by
  cases t <;> first | rfl | simp [isLeaf] at ht

/-- Unions have the members that forms give them: the absent value stands for its class there. -/
inductive Formed : Term → Prop where
  | leaf {t : Term} : t.isLeaf = true → Formed t
  | annotated {t : Term} {tags : Nat} : Formed t → Formed (.annotated t tags)
  | classVar {t : Term} : Formed t → Formed (.classVar t)
  | final {t : Term} : Formed t → Formed (.final t)
  | union {barred : Bool} {ms : List Term} :
      (∀ t ∈ ms, Formed t) → (∀ t ∈ ms, t ≠ .nothing) → Formed (.union barred ms)

/-! ## §2 Mentions -/

theorem map_name_distinct (ms : List Mention) :
    (Mention.distinct ms).map Mention.name = (ms.map Mention.name).eraseDups := by
  induction ms with
  | nil => rfl
  | cons m ms ih =>
    rw [Mention.distinct, List.map_cons, List.map_cons, List.eraseDups_cons, eraseDups_filter, ← ih,
      List.filter_map]
    rfl

theorem map_name_mentions_of_isLeaf (ht : t.isLeaf = true) :
    (t.mentions naming).map Mention.name = (t.named? naming).toList := by
  cases t with
  | «alias» name args =>
    cases args with
    | nil => simp [mentions, named?, stray?, print_bareAlias]
    | cons arg args => simp [mentions, named?, stray?, documented?, placeholder?]
  | annotated t tags => simp [isLeaf] at ht
  | classVar t => simp [isLeaf] at ht
  | final t => simp [isLeaf] at ht
  | union barred ms => simp [isLeaf] at ht
  | _ => simp [mentions, named?, stray?, documented?, placeholder?]

mutual

/-- The names that a term mentions are those of its leaves, each at its first place. -/
theorem map_name_mentions (t : Term) (ht : t.Formed) :
    (t.mentions naming).map Mention.name = (t.leaves.filterMap (named? naming)).eraseDups := by
  cases ht with
  | leaf hleaf =>
    rw [map_name_mentions_of_isLeaf hleaf, leaves_of_isLeaf hleaf]
    cases hnamed : t.named? naming <;> simp [hnamed, List.eraseDups_cons]
  | annotated ht =>
    rw [mentions, leaves]
    exact map_name_mentions _ ht
  | classVar ht =>
    rw [mentions, leaves]
    exact map_name_mentions _ ht
  | final ht =>
    rw [mentions, leaves]
    exact map_name_mentions _ ht
  | @union barred ms hms hsome =>
    rw [mentions, leaves, map_name_distinct]
    exact map_name_memberMentions ms hms hsome

theorem map_name_memberMentions (ms : List Term) (hms : ∀ t ∈ ms, t.Formed)
    (hsome : ∀ t ∈ ms, t ≠ .nothing) :
    ((memberMentions naming ms).map Mention.name).eraseDups =
      ((memberLeaves ms).filterMap (named? naming)).eraseDups := by
  cases ms with
  | nil => rfl
  | cons t ms =>
    have hrest := map_name_memberMentions ms (fun u hu => hms u (.tail t hu))
      fun u hu => hsome u (.tail t hu)
    have ht : (t.mentions naming).map Mention.name =
        (t.leaves.filterMap (named? naming)).eraseDups := map_name_mentions t (hms t (.head ms))
    have hne := hsome t (.head ms)
    by_cases hnothing : t = .nothingType
    · -- the absent value is passed over on both sides
      subst hnothing
      exact hrest
    · rw [memberMentions, memberLeaves, List.map_append, List.filterMap_append, ht]
      · exact eraseDups_append_congr (eraseDups_of_nodup (nodup_eraseDups _)) hrest
      · exact hne
      · exact hnothing
      · exact hnothing

end

/-! ## §3 Evaluated annotations -/

/-- A term that may stand in a form. -/
structure Fit (t : Term) : Prop where
  formed : t.Formed
  ne_nothing : t ≠ .nothing

variable {s a : Term} {ts as : List Term}

theorem fit_converted (ht : t.Formed) : t.converted.Fit := by
  cases t with
  | nothing => exact ⟨.leaf rfl, nofun⟩
  | text a => exact ⟨.leaf rfl, nofun⟩
  | _ => exact ⟨ht, nofun⟩

theorem formed_tagged? (ht : t.Formed) (h : t.tagged? = some a) : a.Formed := by
  unfold tagged? at h
  split at h
  case h_1 =>
    -- one tag more on what is tagged already
    cases h
    cases ht with
    | leaf h => simp [isLeaf] at h
    | annotated ht => exact .annotated ht
  case h_2 => cases h
  case h_3 =>
    cases h
    exact .annotated (fit_converted ht).formed

theorem fit_argument? (ht : t.Formed) (h : t.argument? = some a) : a.Fit := by
  unfold argument? at h
  split at h <;> cases h
  exact fit_converted ht

theorem fit_arguments? (hts : ∀ t ∈ ts, t.Formed) (h : arguments? ts = some as) :
    ∀ a ∈ as, a.Fit := by
  induction ts generalizing as with
  | nil =>
    cases h
    exact nofun
  | cons t ts ih =>
    rw [arguments?, List.mapM_cons] at h
    obtain ⟨a, ha, h⟩ := Option.bind_eq_some_iff.1 h
    obtain ⟨rest, hrest, h⟩ := Option.bind_eq_some_iff.1 h
    cases h
    obtain ⟨ht, hts⟩ := List.forall_mem_cons.1 hts
    exact List.forall_mem_cons.2 ⟨fit_argument? ht ha, ih hts hrest⟩

theorem fit_members (ht : t.Fit) : ∀ m ∈ t.members, m.Fit := by
  intro m hm
  cases t with
  | union barred ms =>
    cases ht.formed with
    | leaf h => simp [isLeaf] at h
    | union hms hsome => exact ⟨hms m hm, hsome m hm⟩
  | _ =>
    cases List.mem_singleton.1 hm
    exact ht

theorem mem_of_mem_distinct (hs : s ∈ distinct ts) : s ∈ ts := by
  induction ts with
  | nil => exact hs
  | cons t ts ih =>
    rcases List.mem_cons.1 hs with rfl | hs
    · exact .head ts
    · exact .tail t (ih (List.mem_filter.1 hs).1)

/-- A union of terms that may stand in a form may do so itself. -/
theorem fit_unionOf {barred : Bool} (hts : ∀ s ∈ ts, s.Fit) (h : unionOf barred ts = some t) :
    t.Fit := by
  have hparts : ∀ m ∈ distinct (ts.flatMap members), m.Fit := by
    intro m hm
    obtain ⟨s, hs, hms⟩ := List.mem_flatMap.1 (mem_of_mem_distinct hm)
    exact fit_members (hts s hs) m hms
  unfold unionOf at h
  split at h
  case h_1 => cases h
  case h_2 s hone =>
    cases h
    exact hparts _ (hone ▸ .head [])
  case h_3 =>
    cases h
    exact ⟨.union (fun m hm => (hparts m hm).formed) fun m hm => (hparts m hm).ne_nothing, nofun⟩

theorem formed_barred? (hs : s.Formed) (ht : t.Formed) (h : barred? s t = some a) : a.Formed := by
  -- the bar is one between classes, or it is the union of the two as arguments
  unfold barred? at h
  split at h
  case h_1 => cases h
  case h_2 =>
    split at h
    · refine (fit_unionOf ?_ h).formed
      simp [fit_converted hs, fit_converted ht]
    · split at h
      · obtain ⟨as, has, h⟩ := Option.bind_eq_some_iff.1 h
        exact (fit_unionOf (fit_arguments? (by simp [hs, ht]) has) h).formed
      · cases h

theorem formed_foldlM_barred? (hs : s.Formed) (hts : ∀ t ∈ ts, t.Formed)
    (h : ts.foldlM barred? s = some a) : a.Formed := by
  induction ts generalizing s with
  | nil =>
    cases h
    exact hs
  | cons t ts ih =>
    rw [List.foldlM_cons] at h
    obtain ⟨next, hnext, hrest⟩ := Option.bind_eq_some_iff.1 h
    obtain ⟨ht, hts⟩ := List.forall_mem_cons.1 hts
    exact ih (formed_barred? hs ht hnext) hts hrest

end Term

namespace Hint

variable {scope : Scope}

mutual

/-- What an annotation is evaluated to is formed. -/
theorem formed_eval? (a : Hint) {t : Term} (h : a.eval? scope = some t) : t.Formed := by
  cases a with
  | name path =>
    obtain ⟨v, -, rfl⟩ := Option.map_eq_some_iff.1 h
    cases v <;> exact .leaf rfl
  | optional a =>
    obtain ⟨s, hs, h⟩ := Option.bind_eq_some_iff.1 h
    obtain ⟨args, hargs, h⟩ := Option.bind_eq_some_iff.1 h
    have hformed : ∀ r ∈ [s, .nothing], r.Formed := by
      simp [formed_eval? a hs, Term.Formed.leaf (t := .nothing) rfl]
    exact (Term.fit_unionOf (Term.fit_arguments? hformed hargs) h).formed
  | union ms =>
    obtain ⟨ss, hss, h⟩ := Option.bind_eq_some_iff.1 h
    obtain ⟨args, hargs, h⟩ := Option.bind_eq_some_iff.1 h
    exact (Term.fit_unionOf (Term.fit_arguments? (formed_evalAll? ms hss) hargs) h).formed
  | bars ms =>
    obtain ⟨ss, hss, h⟩ := Option.bind_eq_some_iff.1 h
    cases ss with
    | nil => cases h
    | cons s ss =>
      obtain ⟨hs, hrest⟩ := List.forall_mem_cons.1 (formed_evalAll? ms hss)
      exact Term.formed_foldlM_barred? hs hrest h
  | annotated a =>
    obtain ⟨s, hs, h⟩ := Option.bind_eq_some_iff.1 h
    exact Term.formed_tagged? (formed_eval? a hs) h
  | classVar a =>
    obtain ⟨s, hs, h⟩ := Option.bind_eq_some_iff.1 h
    obtain ⟨r, hr, h⟩ := Option.bind_eq_some_iff.1 h
    cases h
    exact .classVar (Term.fit_argument? (formed_eval? a hs) hr).formed
  | final a =>
    obtain ⟨s, hs, h⟩ := Option.bind_eq_some_iff.1 h
    obtain ⟨r, hr, h⟩ := Option.bind_eq_some_iff.1 h
    cases h
    exact .final (Term.fit_argument? (formed_eval? a hs) hr).formed
  | generic head args =>
    obtain ⟨c, -, h⟩ := Option.bind_eq_some_iff.1 h
    obtain ⟨as, -, h⟩ := Option.bind_eq_some_iff.1 h
    unfold Scope.generic? at h
    split at h <;> cases h <;> exact .leaf rfl
  | «alias» name args =>
    obtain ⟨ss, -, h⟩ := Option.bind_eq_some_iff.1 h
    obtain ⟨as, -, h⟩ := Option.bind_eq_some_iff.1 h
    cases h
    exact .leaf rfl
  | _ =>
    cases h
    exact .leaf rfl

theorem formed_evalAll? (as : List Hint) {ts : List Term} (h : evalAll? scope as = some ts) :
    ∀ t ∈ ts, t.Formed := by
  cases as with
  | nil =>
    cases h
    exact nofun
  | cons a as =>
    obtain ⟨t, rest, ht, hrest, rfl⟩ := evalAll?_cons h
    exact List.forall_mem_cons.2 ⟨formed_eval? a ht, formed_evalAll? as hrest⟩

end

end Hint

/-! ## §4 Flattening -/

namespace Term

variable {naming : Naming} {t : Term}

/-- What a term is flattened to. -/
structure Flattens (naming : Naming) (t : Term) : Prop where
  /-- No type is named twice. -/
  nodup : ((t.mentions naming).map Mention.name).Nodup
  /-- The names are those of the leaves, from left to right, each at its first place. -/
  leaves : (t.mentions naming).map Mention.name = (t.leaves.filterMap (named? naming)).eraseDups
  /-- Unless a leaf goes astray, they are all as they are said to be. -/
  documented : (∀ leaf ∈ t.leaves, leaf.stray? = none) →
    (t.mentions naming).map Mention.name = (t.leaves.filterMap (documented? naming)).eraseDups
  /-- What goes astray is named, a generic alias without arguments above all. -/
  undocumented : ∀ leaf ∈ t.leaves, ∀ name, leaf.stray? = some name →
    name ∈ (t.mentions naming).map Mention.name

theorem Formed.flattens (ht : t.Formed) : t.Flattens naming where
  nodup := by
    rw [map_name_mentions t ht]
    exact nodup_eraseDups _
  leaves := map_name_mentions t ht
  documented hstray := by
    rw [map_name_mentions t ht]
    congr 1
    apply List.filterMap_congr
    intro leaf hleaf
    simp [named?, hstray leaf hleaf]
  undocumented leaf hleaf name hname := by
    rw [map_name_mentions t ht, List.mem_eraseDups]
    exact List.mem_filterMap.2 ⟨leaf, hleaf, by simp [named?, hname]⟩

theorem isPrimitive_of_placeholder? {n : TypeName} (h : t.placeholder? naming = some n) :
    isPrimitive n = true := by
  unfold placeholder? at h
  split at h <;> cases h
  · exact isPrimitive_print_generic _ _ _ _ _
  · exact isPrimitive_print_alias _ _ _ _ _

end Term

/-- What is primitive is never a reference. -/
theorem not_mem_keepReferences {n : TypeName} (hn : isPrimitive n = true) (code : Codebase)
    (config : Config) (u : TypeName) (ns : List TypeName) :
    n ∉ (context code config).keepReferences u ns := by
  simp [Context.keepReferences, OrdSet.mem_ofList, context, provider, hn]

/-- What goes astray is not primitive unless there is a bracket in its name. -/
theorem isPrimitive_of_stray? {t : Term} {n : TypeName} (h : t.stray? = some n)
    (hn : '[' ∉ n.toList) : isPrimitive n = false := by
  -- it begins with another letter than the names of builtin classes
  have hstart : n.toList.head? ≠ some 'b' := by
    unfold Term.stray? at h
    split at h <;> cases h
    case h_1 => simp
    case h_2 s => cases s <;> decide
  have hnames : n ∉ primitiveNames := by
    intro hmem
    have hhead : ∀ n ∈ primitiveNames, n.toList.head? = some 'b' := by decide
    exact hstart (hhead n hmem)
  simp [isPrimitive, hnames, hn]

/-- Every annotation that can be evaluated is flattened to the names at its leaves, reached through
    wrappers and unions alone: each of them once, in the order of their first places. The absent
    value as a member of a union names nothing, and elsewhere its class. What a generic type with
    arguments is named is primitive, so it is never a reference. A generic alias without arguments,
    which is no class and has no arguments, is named all the same, and so is whatever else has an
    origin; nothing keeps these out of the references. But for them the names are those of classes,
    of the absent value and of generic types. -/
theorem annotations_are_flattened (naming : Naming) :
    (∀ scope (a : Hint) t, a.eval? scope = some t → t.Formed) ∧
    (∀ t : Term, t.Formed → t.Flattens naming) ∧
    (∀ (t : Term) n, t.placeholder? naming = some n →
      isPrimitive n = true ∧ ∀ code config u ns, n ∉ (context code config).keepReferences u ns) ∧
    ∀ (t : Term) n, t.stray? = some n → '[' ∉ n.toList → isPrimitive n = false := by
  refine ⟨fun scope a t => Hint.formed_eval? a, fun t ht => ht.flattens, ?_,
    fun t n => isPrimitive_of_stray?⟩
  intro t n hn
  have hprimitive := Term.isPrimitive_of_placeholder? hn
  exact ⟨hprimitive, not_mem_keepReferences hprimitive⟩

/-- A constant of a union: of the absent value, a whole number, a tagged union of the absent value,
    a list of whole numbers and a whole number, an object that is no type, any list, and positional
    arguments. -/
def layered : Term :=
  .final (.union false [.nothingType, .cls (builtinId 6),
    .annotated (.union true [.nothingType, .generic true (builtinId 0) [.cls (builtinId 6)],
      .cls (builtinId 6)]) 1,
    .object, .alias "List" [], .special .positional])

theorem annotations_are_flattened_layered :
    layered.Formed ∧
      (layered.mentions World.start.naming).map Mention.name =
        ["builtins.int", "list[int]", "typing.List", "P.args"] ∧
      isPrimitive "list[int]" = true ∧ isPrimitive "typing.List" = false := by
  obtain ⟨-, hflattens, hplaceholder, hstray⟩ := annotations_are_flattened World.start.naming
  have hinner : (Term.union true [.nothingType, .generic true (builtinId 0) [.cls (builtinId 6)],
      .cls (builtinId 6)]).Formed := by
    refine .union ?_ (by simp)
    simp only [List.forall_mem_cons]
    exact ⟨.leaf rfl, .leaf rfl, .leaf rfl, nofun⟩
  have hformed : layered.Formed := by
    refine .final (.union ?_ (by simp))
    simp only [List.forall_mem_cons]
    exact ⟨.leaf rfl, .leaf rfl, hinner.annotated, .leaf rfl, .leaf rfl, .leaf rfl, nofun⟩
  refine ⟨hformed, (hflattens layered hformed).leaves.trans (by rfl), ?_,
    hstray (.alias "List" []) "typing.List" rfl (by decide)⟩
  exact (hplaceholder (.generic true (builtinId 0) [.cls (builtinId 6)]) "list[int]" rfl).1

end TypeAtlas.Codebase
