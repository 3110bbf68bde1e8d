import TypeAtlas.Proofs.Closure.Reachability
import TypeAtlas.Proofs.Index.Building

/-!
# Wider universes

A schema with further descriptions, and settings that leave less out, lead to larger closures. Each
such change keeps every direct reference between the types that are described, so every walk remains
one of the same length. A new description does more than to expand a type that was a leaf: it may
nest the new type in an old one, and so give an old type new references.

Main statements: `Setup.Widens.covers` and `Setup.closure_widens`.
-/

namespace TypeAtlas

open Schema

/-! ## §1 Changes that widen -/

/-- The second list is the first one with further descriptions anywhere in it, none of them of a
    taken name. -/
inductive Inserts (taken : List TypeName) : List TypeDecl → List TypeDecl → Prop where
  | nil : Inserts taken [] []
  | keep (d : TypeDecl) {ds ds' : List TypeDecl} :
      Inserts taken ds ds' → Inserts taken (d :: ds) (d :: ds')
  | insert {d : TypeDecl} {ds ds' : List TypeDecl} :
      d.name ∉ taken → Inserts taken ds ds' → Inserts taken ds (d :: ds')

/-- What an index and a session over it are set up with. -/
structure Setup where
  /-- The schema. -/
  schema : Schema
  /-- Further names that count as primitive. -/
  extraPrimitives : List TypeName
  /-- The settings. -/
  config : Config

namespace Setup

/-- The index of the schema. -/
def index (a : Setup) : TypeIndex := TypeIndex.ofSchema a.schema a.extraPrimitives

/-- A session's context over the index, blind to the given types. -/
def context (a : Setup) (blind : List TypeName) : Context Unit := a.index.context blind a.config

/-- One change by which more is described or less is left out. -/
inductive Widens (a : Setup) : Setup → Prop where
  /-- The schema describes further types. -/
  | describing {ds : List TypeDecl} :
      Inserts (a.schema.types.map TypeDecl.name) a.schema.types ds →
      Widens a { a with schema := { a.schema with types := ds } }
  /-- The types at the top of a hierarchy count as references. -/
  | includingRoots : Widens a { a with config := { a.config with includeHierarchyRoot := true } }
  /-- Fewer types are at the top of a hierarchy. -/
  | removingRoots {roots : List TypeName} : roots ⊆ a.config.hierarchyRoots →
      Widens a { a with config := { a.config with hierarchyRoots := roots } }
  /-- Fewer names are primitive besides those of the schema. -/
  | removingExtra {names : List TypeName} : names ⊆ a.extraPrimitives →
      Widens a { a with extraPrimitives := names }
  /-- Fewer names are primitive by the schema. -/
  | removingPrimitives {names : List TypeName} : names ⊆ a.schema.primitives →
      Widens a { a with schema := { a.schema with primitives := names } }

/-- What the first describes the second describes alike, and what the second leaves out of the
    references the first one leaves out as well. -/
structure Covers (a b : Setup) : Prop where
  last : ∀ t d, a.schema.last? t = some d → b.schema.last? t = some d
  reserves : ∀ n, b.schema.Reserves b.extraPrimitives n → a.schema.Reserves a.extraPrimitives n
  roots : ∀ n, b.config.isHierarchyRoot n = true → a.config.isHierarchyRoot n = true

end Setup

/-- Descriptions of other names do not change the last one of a taken name. -/
theorem Inserts.findRev?_eq {taken : List TypeName} {ds ds' : List TypeDecl}
    (h : Inserts taken ds ds') {t : TypeName} (ht : t ∈ taken) :
    (ds'.findRev? fun d => d.name == t) = ds.findRev? fun d => d.name == t := by
  induction h with
  | nil => rfl
  | keep d _ ih => rw [List.findRev?, List.findRev?, ih]
  | @insert d ds _ hd _ ih =>
    have hne : (d.name == t) = false := beq_false_of_ne fun heq => hd (heq ▸ ht)
    rw [List.findRev?, ih, hne]
    cases ds.findRev? fun e => e.name == t <;> rfl

namespace Setup

variable {a b c : Setup} {blind : List TypeName} {t u : TypeName}

namespace Covers

protected theorem refl (a : Setup) : Covers a a where
  last _ _ h := h
  reserves _ h := h
  roots _ h := h

protected theorem trans (h₁ : Covers a b) (h₂ : Covers b c) : Covers a c where
  last t d h := h₂.last t d (h₁.last t d h)
  reserves n h := h₁.reserves n (h₂.reserves n h)
  roots n h := h₁.roots n (h₂.roots n h)

end Covers

/-- One change covers what was there. -/
theorem Widens.covers (h : Widens a b) : Covers a b := by
  cases h with
  | describing hds =>
    -- a type that was described has a name that is taken
    refine { Covers.refl a with last := ?_ }
    intro t d hd
    obtain ⟨hmem, rfl⟩ := Schema.mem_types_of_last? hd
    exact (hds.findRev?_eq (List.mem_map_of_mem hmem)).trans hd
  | includingRoots =>
    refine { Covers.refl a with roots := ?_ }
    intro n hn
    simp [Config.isHierarchyRoot] at hn
  | removingRoots hroots =>
    refine { Covers.refl a with roots := ?_ }
    intro n hn
    simp only [Config.isHierarchyRoot, Bool.and_eq_true, List.contains_iff_mem] at hn ⊢
    exact ⟨hn.1, hroots hn.2⟩
  | removingExtra hnames =>
    refine { Covers.refl a with reserves := ?_ }
    exact fun n => Or.imp_right (Or.imp_right (Or.imp_left fun hn => hnames hn))
  | removingPrimitives hnames =>
    refine { Covers.refl a with reserves := ?_ }
    exact fun n => Or.imp_right (Or.imp_left fun hn => hnames hn)

/-- Any number of changes cover what was there. -/
theorem covers_of_changes (h : Relation.ReflTransGen Widens a b) : Covers a b := by
  induction h with
  | refl => exact .refl a
  | tail _ hchange ih => exact ih.trans hchange.covers

/-! ## §2 References and closures -/

namespace Covers

theorem mem_types (h : Covers a b) {d : TypeDecl} (hd : d ∈ a.index.types) : d ∈ b.index.types :=
  TypeIndex.mem_types_ofSchema_iff.2 (h.last d.name d (TypeIndex.mem_types_ofSchema_iff.1 hd))

theorem find? (h : Covers a b) {d : TypeDecl} (hd : a.index.find? t = some d) :
    b.index.find? t = some d := by
  unfold index at hd ⊢
  rw [TypeIndex.find?_ofSchema] at hd ⊢
  exact h.last t d hd

/-- A type that can be described remains one. -/
theorem describes (h : Covers a b) (ht : a.index.Describes blind t) :
    b.index.Describes blind t := by
  rw [TypeIndex.describes_iff_exists_find?] at ht ⊢
  obtain ⟨hblind, d, hd⟩ := ht
  exact ⟨hblind, d, h.find? hd⟩

/-- What is nested in a type remains nested in it. -/
theorem mem_nestedIn (h : Covers a b) (ht : t ∈ a.index.nestedIn u) : t ∈ b.index.nestedIn u := by
  rw [TypeIndex.mem_nestedIn_iff] at ht ⊢
  obtain ⟨d, hd, hnests⟩ := ht
  exact ⟨d, h.mem_types hd, hnests⟩

/-- A description mentions no less. -/
theorem mem_mentionedBy (h : Covers a b) {d : TypeDecl}
    (ht : t ∈ a.index.mentionedBy a.config d) : t ∈ b.index.mentionedBy b.config d := by
  rw [TypeIndex.mem_mentionedBy_iff] at ht ⊢
  have hkept : a.config.isHierarchyRoot t = false → b.config.isHierarchyRoot t = false := by
    intro hfalse
    rw [← Bool.not_eq_true] at hfalse ⊢
    exact fun hroot => hfalse (h.roots t hroot)
  exact ht.imp h.mem_nestedIn (And.imp_right (Or.imp_right (Or.imp_right (Or.imp_right
    (Or.imp_left (And.imp_right hkept))))))

/-- A direct reference remains one. -/
theorem leads (h : Covers a b) (ht : (a.context blind).refs.Leads u t) :
    (b.context blind).refs.Leads u t := by
  obtain ⟨rs, hrs, hmem⟩ := ht
  obtain ⟨hblind, d, hd⟩ :=
    TypeIndex.describes_iff_exists_find?.1 (TypeIndex.exists_refs_context_iff.1 ⟨rs, hrs⟩)
  cases hrs.symm.trans (TypeIndex.refs_context hd hblind)
  refine ⟨_, TypeIndex.refs_context (h.find? hd) hblind, ?_⟩
  obtain ⟨hmentioned, hprimitive, hne⟩ := Context.mem_keepReferences_iff.1 hmem
  refine Context.mem_keepReferences_iff.2 ⟨h.mem_mentionedBy hmentioned, ?_, hne⟩
  -- a name that is now primitive was so before
  rw [← Bool.not_eq_true] at hprimitive ⊢
  intro hreserved
  apply hprimitive
  exact TypeIndex.isPrimitive_ofSchema_iff.2
    (h.reserves t (TypeIndex.isPrimitive_ofSchema_iff.1 hreserved))

end Covers

/-- **Monotony.** Let any number of changes describe further types, make the types at the top of a
    hierarchy count, or take names from those at the top or from those that are primitive. In any
    two sessions, one before and one after the changes, the closures of a type that could be
    described before are found, and the one before is contained in the one after. -/
theorem closure_widens (h : Relation.ReflTransGen Widens a b) (blind : List TypeName)
    {s s' : Session Unit} (hs : (a.context blind).Reached s) (hs' : (b.context blind).Reached s')
    {root : TypeName} (hroot : a.index.Describes blind root) {d : Int} (hd : -1 ≤ d) :
    ∃ ts ts' s₁ s₁', ((a.context blind).closure root (some d)).run s = (.ok ts, s₁) ∧
      ((b.context blind).closure root (some d)).run s' = (.ok ts', s₁') ∧ ∀ t ∈ ts, t ∈ ts' := by
  have hcovers := covers_of_changes h
  obtain ⟨ts, s₁, hrun, hts⟩ := TypeIndex.exists_run_closure hs hroot hd
  obtain ⟨ts', s₁', hrun', hts'⟩ :=
    TypeIndex.exists_run_closure hs' (hcovers.describes hroot) hd
  refine ⟨ts, ts', s₁, s₁', hrun, hrun', ?_⟩
  intro t ht
  obtain ⟨hne, n, hn, hreach⟩ := (hts t).1 ht
  -- the walk remains, and its length with it, so it is still within the depth
  exact (hts' t).2 ⟨hne, n, hn, hreach.of_leads fun _ _ => hcovers.leads⟩

/-- A schema that describes one type, with `B` as an unknown interface of it. -/
def lone : Setup where
  schema := { types := [{ name := "A", implements := ["B"] }] }
  extraPrimitives := ["C"]
  config := {}

/-- The schema with `B` described, and with a type nested in `A`, which `A` does not say itself. -/
def peopled : Setup where
  schema :=
    { types := [{ name := "Inner", declaring := some "A" }, { name := "A", implements := ["B"] },
        { name := "B", implements := ["C"] }] }
  extraPrimitives := []
  config := { includeHierarchyRoot := true }

theorem closure_widens_lone :
    ∃ ts ts' s₁ s₁', ((lone.context []).closure "A" (some 1)).run Session.fresh = (.ok ts, s₁) ∧
      ((peopled.context []).closure "A" (some 1)).run Session.fresh = (.ok ts', s₁') ∧
      ∀ t ∈ ts, t ∈ ts' := by
  have hdescribing : Widens lone { lone with schema := peopled.schema } :=
    .describing (.insert (by decide) (.keep _ (.insert (by decide) .nil)))
  have hextra : Widens { lone with schema := peopled.schema }
      { lone with schema := peopled.schema, extraPrimitives := [] } :=
    .removingExtra (List.nil_subset _)
  have hchanges : Relation.ReflTransGen Widens lone peopled :=
    ((Relation.ReflTransGen.single hdescribing).tail hextra).tail .includingRoots
  exact closure_widens hchanges [] ⟨[], rfl⟩ ⟨[], rfl⟩ ⟨by decide, by decide⟩ (by decide)

end Setup

end TypeAtlas
