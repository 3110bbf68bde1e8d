import TypeAtlas.Ordered.Entries
import TypeAtlas.Proofs.Index.Building

/-!
# Search

What a possibly partial name stands for, by three rules of which the first that applies hides the
others. The rules are stated over the names that a schema describes, and the tables that a single
pass over these names fills are shown to give the same answers.

Main statements: `TypeIndex.standsFor_iff`, `TypeIndex.lookUp_eq_search` and
`TypeIndex.search_of_schema`.
-/

namespace TypeAtlas

open Schema

/-! ## §1 The three rules -/

/-- The names whose last component is the word, as written or in lower case. -/
def endingIn (named : List TypeName) (word : String) : List TypeName :=
  named.filter fun n => simpleName n == word || Text.lowercase (simpleName n) == word

/-- Among the names given, the word stands for these. -/
inductive StandsFor (named : List TypeName) (word : String) : List TypeName → Prop where
  /-- The word is one of the names. -/
  | exact : word ∈ named → StandsFor named word [word]
  /-- The word is none of the names, and differs from some of them in case only. -/
  | anyCase : word ∉ named → (∃ n ∈ named, Text.lowercase n = Text.lowercase word) →
      StandsFor named word (named.filter fun n => Text.lowercase n == Text.lowercase word)
  /-- The word differs from all names in more than case. It is taken for a last component, first as
      written and then in lower case. -/
  | lastComponent : (∀ n ∈ named, Text.lowercase n ≠ Text.lowercase word) →
      StandsFor named word (endingIn named word ++
        (endingIn named (Text.lowercase word)).filter fun n => !(endingIn named word).contains n)

namespace StandsFor

variable {named ns ns' : List TypeName} {word : String}

/-- Every answer is one of the names. -/
theorem subset (h : StandsFor named word ns) : ns ⊆ named := by
  cases h with
  | exact hmem => exact List.cons_subset.2 ⟨hmem, List.nil_subset _⟩
  | anyCase => exact List.filter_subset_self _
  | lastComponent =>
    apply List.append_subset.2
    refine ⟨List.filter_subset_self _, ?_⟩
    exact List.Subset.trans (List.filter_subset_self _) (List.filter_subset_self _)

/-- No answer is given twice. -/
theorem nodup (hnamed : named.Nodup) (h : StandsFor named word ns) : ns.Nodup := by
  cases h with
  | exact => exact List.nodup_singleton word
  | anyCase => exact hnamed.filter _
  | lastComponent =>
    apply List.nodup_append'.2
    refine ⟨hnamed.filter _, (hnamed.filter _).filter _, ?_⟩
    -- what the second part holds is not in the first one
    intro n hfirst hsecond
    have hkept := (List.mem_filter.1 hsecond).2
    rw [Bool.not_eq_true', List.contains_eq_mem, decide_eq_false_iff_not] at hkept
    exact hkept hfirst

/-- The rules give one answer. -/
theorem functional (h : StandsFor named word ns) (h' : StandsFor named word ns') : ns = ns' := by
  -- the condition of each rule excludes the others
  cases h with
  | exact hmem =>
    cases h' with
    | exact => rfl
    | anyCase hnot => exact absurd hmem hnot
    | lastComponent hnone => exact absurd rfl (hnone word hmem)
  | anyCase hnot hsome =>
    cases h' with
    | exact hmem => exact absurd hmem hnot
    | anyCase => rfl
    | lastComponent hnone =>
      obtain ⟨n, hn, hcase⟩ := hsome
      exact absurd hcase (hnone n hn)
  | lastComponent hnone =>
    cases h' with
    | exact hmem => exact absurd rfl (hnone word hmem)
    | anyCase _ hsome =>
      obtain ⟨n, hn, hcase⟩ := hsome
      exact absurd hcase (hnone n hn)
    | lastComponent => rfl

end StandsFor

namespace TypeIndex

variable {x : TypeIndex} {ns : List TypeName}

/-- Two lists without repetitions, one after the other, each name once. -/
theorem distinct_append {ms : List TypeName} (hns : ns.Nodup) (hms : ms.Nodup) :
    distinct (ns ++ ms) = ns ++ ms.filter fun m => !ns.contains m := by
  have hrest : (ms.filter fun m => !ns.contains m).Nodup := hms.filter _
  rw [distinct_eq_eraseDups, List.eraseDups_append, eraseDups_of_nodup hns]
  exact congrArg (ns ++ ·) (eraseDups_of_nodup hrest)

/-- A search answers with what the word stands for among the names of the index. -/
theorem standsFor_search (hnames : x.names.Nodup) (query : String) :
    StandsFor x.names (Text.strip query) (x.search query) := by
  unfold search
  dsimp only
  split
  case isTrue hword => exact .exact (contains_iff_mem_names.1 hword)
  case isFalse hword =>
    have hnot : Text.strip query ∉ x.names := fun hmem => hword (contains_iff_mem_names.2 hmem)
    split
    case h_1 hnone =>
      -- no name agrees with the word in lower case, so last components count
      have hends := fun word => hnames.filter fun n =>
        simpleName n == word || Text.lowercase (simpleName n) == word
      unfold withSimpleName
      rw [distinct_append (hends _) (hends _)]
      apply StandsFor.lastComponent
      intro n hn
      simpa using List.filter_eq_nil_iff.1 hnone n hn
    case h_2 hsome =>
      apply StandsFor.anyCase hnot
      obtain ⟨n, hn⟩ := List.exists_mem_of_ne_nil _ hsome
      obtain ⟨hmem, hcase⟩ := List.mem_filter.1 hn
      exact ⟨n, hmem, by simpa using hcase⟩

/-- The answer of a search is the one that the rules give. -/
theorem standsFor_iff (hnames : x.names.Nodup) (query : String) :
    StandsFor x.names (Text.strip query) ns ↔ ns = x.search query := by
  have hsearch := standsFor_search hnames query
  apply Iff.intro
  · exact fun h => h.functional hsearch
  · intro h
    rw [h]
    exact hsearch

/-! ## §2 The tables -/

/-- The names filed under a key. -/
def filed (register : Entries (List TypeName)) (key : String) : List TypeName :=
  (register.get? key).getD []

/-- File a name under a key, behind those that are there. -/
def file (n : TypeName) (register : Entries (List TypeName)) (key : String) :
    Entries (List TypeName) :=
  register.put key (filed register key ++ [n])

/-- Each name filed under all its keys, in one pass over the names. -/
def registerBy (keys : TypeName → List String) (ns : List TypeName) : Entries (List TypeName) :=
  ns.foldl (fun register n => (keys n).foldl (file n) register) []

/-- The names of the index by what they are in lower case. -/
def byLowercase (x : TypeIndex) : Entries (List TypeName) :=
  registerBy (fun n => [Text.lowercase n]) x.names

/-- The names of the index by their last component, as written and in lower case. A name whose last
    component is in lower case is filed twice under it. -/
def bySimpleName (x : TypeIndex) : Entries (List TypeName) :=
  registerBy (fun n => [simpleName n, Text.lowercase (simpleName n)]) x.names

/-- The answer of a search, read off the tables. -/
def lookUp (x : TypeIndex) (query : String) : List TypeName :=
  let word := Text.strip query
  if x.contains word then [word]
  else
    let lower := Text.lowercase word
    match filed x.byLowercase lower with
    | [] => distinct (filed x.bySimpleName word ++ filed x.bySimpleName lower)
    | ns => ns

theorem filed_file (n : TypeName) (register : Entries (List TypeName)) (key k : String) :
    filed (file n register key) k =
      filed register k ++ if key = k then [n] else [] := by
  unfold file filed
  rw [Entries.get?_put]
  by_cases hk : key = k
  · subst hk
    simp
  · simp [hk]

theorem filed_foldl_file (n : TypeName) (keys : List String)
    (register : Entries (List TypeName)) (k : String) :
    filed (keys.foldl (file n) register) k =
      filed register k ++ keys.flatMap fun key => if key = k then [n] else [] := by
  induction keys generalizing register with
  | nil => simp
  | cons key keys ih =>
    rw [List.foldl_cons, ih, filed_file, List.flatMap_cons, List.append_assoc]

/-- A table files a name under a key as often as the key is one of its keys. -/
theorem filed_registerBy (keys : TypeName → List String) (ns : List TypeName) (k : String) :
    filed (registerBy keys ns) k =
      ns.flatMap fun n => (keys n).flatMap fun key => if key = k then [n] else [] := by
  have key : ∀ register, filed (ns.foldl (fun reg n => (keys n).foldl (file n) reg) register) k =
      filed register k ++
        ns.flatMap fun n => (keys n).flatMap fun key => if key = k then [n] else [] := by
    induction ns with
    | nil => simp
    | cons n ns ih =>
      intro register
      rw [List.foldl_cons, ih, filed_foldl_file, List.flatMap_cons, List.append_assoc]
  exact (key []).trans (List.nil_append _)

theorem filed_byLowercase (x : TypeIndex) (key : String) :
    filed x.byLowercase key = x.names.filter fun n => Text.lowercase n == key := by
  unfold byLowercase
  rw [filed_registerBy]
  induction x.names with
  | nil => rfl
  | cons n ns ih =>
    rw [List.flatMap_cons, ih, List.filter_cons]
    by_cases hn : Text.lowercase n = key <;> simp [hn]

theorem addNew_addNew (ms : List TypeName) (n : TypeName) :
    addNew (addNew ms n) n = addNew ms n := by
  have hmem : n ∈ addNew ms n := mem_addNew.2 (.inr rfl)
  have hcontains : (addNew ms n).contains n = true := by simpa using hmem
  generalize addNew ms n = ms at hcontains
  unfold addNew
  rw [if_pos hcontains]

/-- A name that is filed under two keys is added once, even if both of them are the word. -/
theorem foldl_addNew_keys (ms : List TypeName) (n plain lower word : String) :
    ([plain, lower].flatMap fun key => if key = word then [n] else []).foldl addNew ms =
      if plain = word ∨ lower = word then addNew ms n else ms := by
  by_cases hplain : plain = word <;> by_cases hlower : lower = word <;>
    simp [hplain, hlower, addNew_addNew]

/-- The names filed under a last component are those that end in it, each of them added once. -/
theorem foldl_addNew_filed_bySimpleName (x : TypeIndex) (word : String) (ms : List TypeName) :
    (filed x.bySimpleName word).foldl addNew ms = (x.withSimpleName word).foldl addNew ms := by
  unfold bySimpleName withSimpleName
  rw [filed_registerBy]
  induction x.names generalizing ms with
  | nil => rfl
  | cons n ns ih =>
    rw [List.flatMap_cons, List.foldl_append, foldl_addNew_keys, ih, List.filter_cons]
    by_cases hn : simpleName n = word ∨ Text.lowercase (simpleName n) = word <;> simp [hn]

/-- The tables give the answers of a search. -/
theorem lookUp_eq_search (x : TypeIndex) (query : String) : x.lookUp query = x.search query := by
  have hsimple : ∀ word lower : String,
      distinct (filed x.bySimpleName word ++ filed x.bySimpleName lower) =
        distinct (x.withSimpleName word ++ x.withSimpleName lower) := by
    intro word lower
    unfold distinct
    rw [List.foldl_append, List.foldl_append, foldl_addNew_filed_bySimpleName,
      foldl_addNew_filed_bySimpleName]
  unfold lookUp search
  simp only [filed_byLowercase, hsimple]
  rfl

/-! ## §3 The index of a schema -/

theorem names_ofSchema (s : Schema) (extra : List TypeName) :
    (ofSchema s extra).names = (s.types.map TypeDecl.name).eraseDups :=
  map_name_mergeTypes s.types

/-- A name resolves to itself exactly when the index describes it. -/
theorem run_resolve_eq_ok_iff {n : TypeName} :
    (x.provider.resolve n).run () = (.ok n, ()) ↔ x.contains n = true := by
  unfold provider
  by_cases hn : x.contains n = true
  · simp only [hn, if_true, iff_true]
    rfl
  · simp only [hn]
    exact ⟨nofun, nofun⟩

/-- **Search.** For every schema, a query is stripped and answered by the first of three rules that
    applies, over the names that the schema describes in the order of their first descriptions. The
    tables give the same answer. No answer is given twice and each one resolves. A name without
    blanks at its ends is found by itself, with or without blanks around it. -/
theorem search_of_schema (s : Schema) (extra : List TypeName) :
    let x := ofSchema s extra
    let named := (s.types.map TypeDecl.name).eraseDups
    (∀ query, ∃ ns, (x.provider.search query).run () = (.ok ns, ()) ∧ x.lookUp query = ns ∧
      (∀ ms, StandsFor named (Text.strip query) ms ↔ ms = ns) ∧ ns.Nodup ∧
      ∀ n ∈ ns, (x.provider.resolve n).run () = (.ok n, ())) ∧
    ∀ n ∈ named, Text.strip n = n → ∀ before after : String,
      (∀ c ∈ before.toList, Text.isBlank c = true) →
      (∀ c ∈ after.toList, Text.isBlank c = true) →
      (x.provider.search (before ++ n ++ after)).run () = (.ok [n], ()) := by
  intro x named
  have hnamed : x.names = named := names_ofSchema s extra
  have hnodup : x.names.Nodup := nodup_names_mergeTypes s.types
  rw [← hnamed]
  apply And.intro
  · intro query
    have hrules := standsFor_search hnodup query
    refine ⟨x.search query, rfl, lookUp_eq_search x query, fun ms => standsFor_iff hnodup query,
      hrules.nodup hnodup, ?_⟩
    intro n hn
    exact run_resolve_eq_ok_iff.2 (contains_iff_mem_names.2 (hrules.subset hn))
  · intro n hn hstrip before after hbefore hafter
    have hquery : Text.strip (before ++ n ++ after) = n :=
      (Text.strip_surround hbefore hafter).trans hstrip
    have hexact : StandsFor x.names (Text.strip (before ++ n ++ after)) [n] := by
      rw [hquery]
      exact .exact hn
    rw [(standsFor_iff hnodup _).1 hexact]
    rfl

/-- Three names with one last component but for its case. One of them is nested in a type, and
    another one is described twice. -/
def collidingNames : Schema where
  types := [{ name := "a.Box" }, { name := "A.BOX" }, { name := "b.Case$box" },
    { name := "a.Box", kind := "interface" }]

/-- The name as written comes first among those that differ in case, and a full name between blanks
    is found by itself. -/
theorem search_of_colliding_names :
    ((ofSchema collidingNames []).provider.search "Box").run () =
        (.ok ["a.Box", "A.BOX", "b.Case$box"], ()) ∧
      ((ofSchema collidingNames []).provider.search (" " ++ "b.Case$box" ++ "\n")).run () =
        (.ok ["b.Case$box"], ()) := by
  obtain ⟨hanswer, hfound⟩ := search_of_schema collidingNames []
  apply And.intro
  · obtain ⟨ns, hns, -, hrules, -⟩ := hanswer "Box"
    -- no full name agrees with the word, so the third rule applies
    have hlast := StandsFor.lastComponent
      (by decide +kernel : ∀ n ∈ (collidingNames.types.map TypeDecl.name).eraseDups,
        Text.lowercase n ≠ Text.lowercase (Text.strip "Box"))
    rw [hns, ← (hrules _).1 hlast]
    refine congrArg (fun ns => (Except.ok ns, ())) ?_
    decide +kernel
  · have hbefore : " ".toList.all Text.isBlank = true := by decide +kernel
    have hafter : "\n".toList.all Text.isBlank = true := by decide +kernel
    exact hfound "b.Case$box" (by decide) (by decide +kernel) " " "\n"
      (List.all_eq_true.1 hbefore) (List.all_eq_true.1 hafter)

end TypeIndex

end TypeAtlas
