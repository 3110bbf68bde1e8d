import Mathlib.Data.List.Perm.Lattice
import TypeAtlas.Proofs.Index.Building
import TypeAtlas.Proofs.Session.Lockstep

/-!
# The order of a schema

Two schemas that describe the same types, in whatever order, and list interfaces, nested types and
fields in whatever order, lead to the same sessions: each step leaves the same cache, graph and log,
and has the same outcome unless it asks for a listing. A listing holds the same in another order.

Main statements: `TypeIndex.Rearranged.matches_provider` and
`TypeIndex.sessions_of_rearranged_schemas`.
-/

namespace TypeAtlas

open Schema

/-! ## §1 Rearrangements -/

/-- The same description, with interfaces, nested types and fields each in an order of its own. -/
structure Schema.TypeDecl.Rearranged (d d' : TypeDecl) : Prop where
  implements : d.implements.Perm d'.implements
  nested : d.nested.Perm d'.nested
  fields : d.fields.Perm d'.fields
  rest : d' = { d with implements := d'.implements, nested := d'.nested, fields := d'.fields }

/-- The same descriptions in another order, each of them possibly rearranged. -/
def RearrangedTypes (ds ds' : List TypeDecl) : Prop :=
  ∃ between, ds.Perm between ∧ List.Forall₂ TypeDecl.Rearranged between ds'

/-- The same schema but for the order of its types, interfaces, nested types and fields. -/
structure Schema.Rearranged (s s' : Schema) : Prop where
  types : RearrangedTypes s.types s'.types
  rest : s' = { s with types := s'.types }

namespace Schema.TypeDecl.Rearranged

variable {d d' : TypeDecl}

theorem name_eq (h : d.Rearranged d') : d.name = d'.name := by rw [h.rest]

protected theorem symm (h : d.Rearranged d') : d'.Rearranged d where
  implements := h.implements.symm
  nested := h.nested.symm
  fields := h.fields.symm
  rest := by rw [h.rest]

end Schema.TypeDecl.Rearranged

namespace RearrangedTypes

variable {ds ds' : List TypeDecl}

protected theorem symm (h : RearrangedTypes ds ds') : RearrangedTypes ds' ds := by
  obtain ⟨between, hperm, hall⟩ := h
  obtain ⟨between', hall', hperm'⟩ := List.perm_comp_forall₂ hperm hall
  exact ⟨between', hperm'.symm, (hall'.imp fun _ _ hd => hd.symm).flip⟩

/-- What is the same for rearranged descriptions is the same for all, in whatever order. -/
theorem perm_map {α : Type} {f : TypeDecl → α} (h : RearrangedTypes ds ds')
    (hf : ∀ d d', d.Rearranged d' → f d = f d') : (ds.map f).Perm (ds'.map f) := by
  obtain ⟨between, hperm, hall⟩ := h
  have hsame : List.Forall₂ Eq (between.map f) (ds'.map f) :=
    List.forall₂_map_left_iff.2 (List.forall₂_map_right_iff.2 (hall.imp hf))
  rw [List.forall₂_eq_eq_eq] at hsame
  rw [← hsame]
  exact hperm.map f

theorem exists_of_mem (h : RearrangedTypes ds ds') {d : TypeDecl} (hd : d ∈ ds) :
    ∃ d' ∈ ds', d.Rearranged d' := by
  obtain ⟨between, hperm, hall⟩ := h
  have hmem : d ∈ between := hperm.mem_iff.1 hd
  clear hperm
  induction hall with
  | nil => cases hmem
  | cons hhead _ ih =>
    rcases List.mem_cons.1 hmem with rfl | htail
    · exact ⟨_, .head _, hhead⟩
    · obtain ⟨d', hd', hre⟩ := ih htail
      exact ⟨d', .tail _ hd', hre⟩

end RearrangedTypes

namespace TypeIndex

/-- The same index but for the order of its types, interfaces, nested types and fields. -/
structure Rearranged (x x' : TypeIndex) : Prop where
  types : RearrangedTypes x.types x'.types
  /-- No name is described twice. -/
  distinct : x.names.Nodup
  primitives : x'.primitives = x.primitives

theorem rearranged_ofSchema {s s' : Schema} (h : s.Rearranged s')
    (hdistinct : (s.types.map TypeDecl.name).Nodup) (extra : List TypeName) :
    (ofSchema s extra).Rearranged (ofSchema s' extra) := by
  have hdistinct' : (s'.types.map TypeDecl.name).Nodup :=
    (h.types.perm_map fun _ _ hd => hd.name_eq).nodup_iff.1 hdistinct
  have htypes : (ofSchema s extra).types = s.types := mergeTypes_of_nodup hdistinct
  have htypes' : (ofSchema s' extra).types = s'.types := mergeTypes_of_nodup hdistinct'
  refine ⟨?_, ?_, ?_⟩
  · rw [htypes, htypes']
    exact h.types
  · unfold names
    rw [htypes]
    exact hdistinct
  · unfold ofSchema
    rw [h.rest]

/-! ## §2 What a rearranged index answers -/

namespace Rearranged

variable {x x' : TypeIndex}

theorem names_perm (h : x.Rearranged x') : x.names.Perm x'.names :=
  h.types.perm_map fun _ _ hd => hd.name_eq

protected theorem symm (h : x.Rearranged x') : x'.Rearranged x where
  types := h.types.symm
  distinct := h.names_perm.nodup_iff.1 h.distinct
  primitives := h.primitives.symm

theorem exists_find? (h : x.Rearranged x') {t : TypeName} {d : TypeDecl} (hd : x.find? t = some d) :
    ∃ d', x'.find? t = some d' ∧ d.Rearranged d' := by
  obtain ⟨hmem, rfl⟩ := mem_types_of_find? hd
  obtain ⟨d', hmem', hre⟩ := h.types.exists_of_mem hmem
  refine ⟨d', ?_, hre⟩
  rw [hre.name_eq]
  exact (mem_iff_find?_eq_some h.symm.distinct).1 hmem'

/-- A name is found on neither side, or on both with the same description, rearranged. -/
theorem find?_eq_none_or_exists (h : x.Rearranged x') (t : TypeName) :
    (x.find? t = none ∧ x'.find? t = none) ∨
      ∃ d d', x.find? t = some d ∧ x'.find? t = some d' ∧ d.Rearranged d' := by
  cases hd : x.find? t with
  | some d =>
    obtain ⟨d', hd', hre⟩ := h.exists_find? hd
    exact .inr ⟨d, d', rfl, hd', hre⟩
  | none =>
    cases hd' : x'.find? t with
    | none => exact .inl ⟨rfl, rfl⟩
    | some d' =>
      obtain ⟨d, hd'', -⟩ := h.symm.exists_find? hd'
      cases hd.symm.trans hd''

theorem contains_eq (h : x.Rearranged x') (t : TypeName) : x'.contains t = x.contains t := by
  unfold contains
  rcases h.find?_eq_none_or_exists t with ⟨hd, hd'⟩ | ⟨d, d', hd, hd', -⟩
  · rw [hd, hd']
  · rw [hd, hd']
    rfl

theorem mem_nestedIn_imp (h : x.Rearranged x') {parent n : TypeName} (hn : n ∈ x.nestedIn parent) :
    n ∈ x'.nestedIn parent := by
  obtain ⟨d, hd, hnests⟩ := mem_nestedIn_iff.1 hn
  obtain ⟨d', hd', hre⟩ := h.types.exists_of_mem hd
  apply mem_nestedIn_iff.2
  refine ⟨d', hd', ?_⟩
  unfold Nests at hnests ⊢
  rw [← hre.name_eq, ← hre.nested.mem_iff, show d'.declaring = d.declaring by rw [hre.rest]]
  exact hnests

/-- The types nested in a type are the same, from whichever direction each was met first. -/
theorem nestedIn_perm (h : x.Rearranged x') (parent : TypeName) :
    (x.nestedIn parent).Perm (x'.nestedIn parent) := by
  rw [List.perm_ext_iff_of_nodup (x.nodup_nestedIn parent) (x'.nodup_nestedIn parent)]
  exact fun n => ⟨h.mem_nestedIn_imp, h.symm.mem_nestedIn_imp⟩

theorem distinct_perm {ns ns' : List TypeName} (h : ns.Perm ns') :
    (TypeIndex.distinct ns).Perm (TypeIndex.distinct ns') := by
  unfold TypeIndex.distinct
  rw [List.perm_ext_iff_of_nodup (nodup_foldl_addNew .nil) (nodup_foldl_addNew .nil)]
  intro n
  rw [mem_foldl_addNew, mem_foldl_addNew, h.mem_iff]

theorem search_perm (h : x.Rearranged x') (query : String) :
    (x.search query).Perm (x'.search query) := by
  have hsimple : ∀ word, (x.withSimpleName word).Perm (x'.withSimpleName word) := fun word =>
    h.names_perm.filter _
  unfold search
  simp only [h.contains_eq]
  split
  case isTrue => rfl
  case isFalse =>
    -- the same names differ in case only, and if there are none, the same have the last component
    have hcase := h.names_perm.filter fun n =>
      Text.lowercase n == Text.lowercase (Text.strip query)
    cases hns : x.names.filter fun n => Text.lowercase n == Text.lowercase (Text.strip query) with
    | nil =>
      rw [hns] at hcase
      rw [hcase.nil_eq.symm]
      exact distinct_perm ((hsimple _).append (hsimple _))
    | cons n ns =>
      rw [hns] at hcase
      cases hns' : x'.names.filter fun n =>
          Text.lowercase n == Text.lowercase (Text.strip query) with
      | nil =>
        rw [hns'] at hcase
        cases hcase.symm.nil_eq
      | cons n' ns' =>
        rw [hns'] at hcase
        exact hcase

/-- A question about a description has answers that agree, if they do so for rearranged ones. -/
theorem matches_describing {α : Type} {Q : α → α → Prop} (h : x.Rearranged x')
    (blind : List TypeName) {answer answer' : TypeDecl → α}
    (hanswer : ∀ d d', d.Rearranged d' → Q (answer d) (answer' d')) (t : TypeName) :
    (Provider.unlessBlind blind (x.describing answer) t).Matches Q
      (Provider.unlessBlind blind (x'.describing answer') t) := by
  intro u
  unfold Provider.unlessBlind describing
  split
  case isTrue => exact ⟨.failed _, rfl⟩
  case isFalse =>
    rcases h.find?_eq_none_or_exists t with ⟨hd, hd'⟩ | ⟨d, d', hd, hd', hre⟩
    · rw [hd, hd']
      exact ⟨.failed _, rfl⟩
    · rw [hd, hd']
      exact ⟨.answered (hanswer d d' hre), rfl⟩

theorem capacity_eq (h : x.Rearranged x') :
    (x'.types.flatMap mentions).length = (x.types.flatMap mentions).length := by
  have hlength : ∀ d d' : TypeDecl, d.Rearranged d' →
      (mentions d).length = (mentions d').length := by
    intro d d' hre
    unfold mentions
    rw [hre.rest]
    simp [hre.implements.length_eq, hre.nested.length_eq, hre.fields.length_eq]
  rw [List.length_flatMap, List.length_flatMap]
  exact (h.types.perm_map hlength).sum_nat.symm

/-- Providers of rearranged indexes answer alike, but for the order of their listings. -/
theorem matches_provider (h : x.Rearranged x') (blind : List TypeName) :
    (x.provider.blinding blind).Matches (x'.provider.blinding blind) where
  resolve n := by
    show Asking.Matches Eq (if x.contains n = true then pure n else throw (.unresolved n))
      (if x'.contains n = true then pure n else throw (.unresolved n))
    rw [h.contains_eq]
    exact Asking.matches_refl (fun _ => rfl) _
  search n := fun _ => ⟨.answered (h.search_perm n), rfl⟩
  -- rearranged descriptions differ only in the order of interfaces, nested types and fields
  fields := h.matches_describing blind fun d d' hre => hre.fields.map _
  methods := h.matches_describing blind fun d d' hre => by rw [hre.rest]; rfl
  constructors := h.matches_describing blind fun d d' hre => by rw [hre.rest]; rfl
  interfaces := h.matches_describing blind fun d d' hre => hre.implements.filter _
  superType := h.matches_describing blind fun d d' hre => by rw [hre.rest]
  declaringType := h.matches_describing blind fun d d' hre => by rw [hre.rest]
  enclosingType := h.matches_describing blind fun d d' hre => by rw [hre.rest]; rfl
  nestedTypes := h.matches_describing blind fun d d' hre => by
    rw [← hre.name_eq]
    exact h.nestedIn_perm d.name
  modifiers := h.matches_describing blind fun d d' hre => by rw [hre.rest]; rfl
  isPrimitive := by
    funext n
    show x'.isPrimitive n = x.isPrimitive n
    unfold isPrimitive
    rw [h.primitives]
  capacity := funext fun _ => h.capacity_eq

theorem lockstep (h : x.Rearranged x') (blind : List TypeName) (config : Config) :
    (x.context blind config).Lockstep (x'.context blind config) (Session.SameBut Eq) :=
  Context.lockstep_sameBut (h.matches_provider blind) rfl
    (fun _ _ hg reached => congrArg (Context.drawn _ · reached) hg)
    fun _ _ hg step => congrArg (Graph.after · step) hg

end Rearranged

/-! ## §3 Sessions -/

/-- Answers that agree in equal sessions are the same, unless they are listings. -/
theorem eq_of_agrees_of_lists_eq_false {step : Step} {a a' : Answer} (hlists : step.lists = false)
    (h : step.Agrees (Session.SameBut (σ := Unit) Eq) a a') : a = a' := by
  cases h with
  | same => rfl
  | listing h' _ => cases hlists.symm.trans h'
  | neighbourhood t rs hs => rw [hs.graph]
  | analysis depth metrics unresolved hs => rw [hs.graph]
  | graph step hs => rw [hs.graph]

theorem listsAlike_of_agrees {step : Step} {a a' : Answer} (hlists : step.lists = true)
    (h : step.Agrees (Session.SameBut (σ := Unit) Eq) a a') : a = a' ∨ a.ListsAlike a' := by
  cases h with
  | same => exact .inl rfl
  | listing _ h' => exact .inr h'
  | _ => cases hlists

/-- Two schemas that describe each name once, and the same but for the order of types, interfaces,
    nested types and fields, lead to the same sessions: the same steps leave the same cache, graph
    and log. Each step then has the same outcome, be it an answer or a failure, unless it asks for
    a listing; and a listing fails alike, or holds the same types or fields. -/
theorem sessions_of_rearranged_schemas {s s' : Schema}
    (hdistinct : (s.types.map TypeDecl.name).Nodup) (h : s.Rearranged s') (extra : List TypeName)
    (blind : List TypeName) (config : Config) (steps : List Step) :
    let ctx := (ofSchema s extra).context blind config
    let ctx' := (ofSchema s' extra).context blind config
    ctx'.after Session.fresh steps = ctx.after Session.fresh steps ∧
    (∀ step : Step, step.lists = false →
      (ctx'.step (ctx'.after Session.fresh steps) step).1 =
        (ctx.step (ctx.after Session.fresh steps) step).1) ∧
    ∀ step : Step, step.lists = true →
      Agree (fun a a' => a = a' ∨ a.ListsAlike a')
        (ctx.step (ctx.after Session.fresh steps) step).1
        (ctx'.step (ctx'.after Session.fresh steps) step).1 := by
  intro ctx ctx'
  have hlock := (rearranged_ofSchema h hdistinct extra).lockstep blind config
  have hsame : Session.SameBut Eq (ctx.after Session.fresh steps)
      (ctx'.after Session.fresh steps) := hlock.after ⟨rfl, rfl, rfl, rfl⟩ steps
  refine ⟨?_, ?_, ?_⟩
  · exact hsame.eq
  · intro step hlists
    have hagree := (hlock.step hsame step).1.mono fun _ _ =>
      eq_of_agrees_of_lists_eq_false hlists
    exact (agree_eq_iff.1 hagree).symm
  · exact fun step hlists => (hlock.step hsame step).1.mono fun _ _ => listsAlike_of_agrees hlists

/-- An outer type that names one nested type and is declared by another, and an interface. -/
def outer : Schema where
  types :=
    [{ name := "A", nested := ["C", "D"], fields := [⟨"f", "I", []⟩, ⟨"g", "J", []⟩] },
      { name := "B", implements := ["I", "J"], declaring := some "A" },
      { name := "C" }]

/-- The same types in another order. -/
def outerRearranged : Schema where
  types :=
    [{ name := "B", implements := ["J", "I"], declaring := some "A" },
      { name := "A", nested := ["D", "C"], fields := [⟨"g", "J", []⟩, ⟨"f", "I", []⟩] },
      { name := "C" }]

theorem rearranged_outer : outer.Rearranged outerRearranged where
  types := by
    refine ⟨_, List.Perm.swap _ _ _, ?_⟩
    refine .cons ⟨?_, ?_, ?_, rfl⟩ (.cons ⟨?_, ?_, ?_, rfl⟩ (.cons ⟨?_, ?_, ?_, rfl⟩ .nil)) <;>
      decide
  rest := rfl

/-- The nested types of `A` are told in two orders, and all else is the same. -/
theorem sessions_of_rearranged_schemas_outer :
    (outer.types.map TypeDecl.name).Nodup ∧ outer.Rearranged outerRearranged ∧
      (ofSchema outer []).nestedIn "A" = ["C", "D", "B"] ∧
      (ofSchema outerRearranged []).nestedIn "A" = ["B", "D", "C"] ∧
      (((ofSchema outerRearranged []).context ["C"] {}).step
          (((ofSchema outerRearranged []).context ["C"] {}).after Session.fresh [.direct "B"])
          (.analyze ["A", "B", "C"] none)).1 =
        (((ofSchema outer []).context ["C"] {}).step
          (((ofSchema outer []).context ["C"] {}).after Session.fresh [.direct "B"])
          (.analyze ["A", "B", "C"] none)).1 := by
  have hdistinct : (outer.types.map TypeDecl.name).Nodup := by decide
  obtain ⟨-, hsteps, -⟩ := sessions_of_rearranged_schemas hdistinct rearranged_outer [] ["C"] {}
    [.direct "B"]
  exact ⟨hdistinct, rearranged_outer, by decide, by decide, hsteps _ rfl⟩

end TypeIndex

end TypeAtlas
