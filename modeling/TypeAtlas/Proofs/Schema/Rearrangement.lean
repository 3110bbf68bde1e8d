import TypeAtlas.Proofs.Json.Rearrangement
import TypeAtlas.Proofs.Json.Spelling
import TypeAtlas.Schema.Reading

/-!
# Rearranged schemas

A schema is read from the members that its format knows. Each description of the format is given by
its slots here, and its reader is the one that fills them. So no reader minds the order of members
or members of other names, wherever they stand.

Main statement: `Schema.exists_ofOctets_rearranged`.
-/

namespace TypeAtlas.Schema

open Json

/-! ## §1 The format -/

/-- The members of a field. -/
def fieldShape : Shape := .fields [("name", .any), ("type", .any), ("modifiers", .any)]

/-- The members of a method. -/
def methodShape : Shape :=
  .fields [("name", .any), ("returns", .any), ("params", .any), ("throws", .any),
    ("modifiers", .any)]

/-- The members of a constructor. -/
def constructorShape : Shape := .fields [("params", .any), ("throws", .any), ("modifiers", .any)]

/-- The members of a type. -/
def typeShape : Shape :=
  .fields [("name", .any), ("kind", .any), ("modifiers", .any), ("extends", .any),
    ("implements", .any), ("declaring", .any), ("enclosing", .any), ("nested", .any),
    ("fields", .items fieldShape), ("methods", .items methodShape),
    ("constructors", .items constructorShape)]

/-- The members of a schema. -/
def shape : Shape :=
  .fields [("version", .any), ("metadata", .any), ("primitives", .any),
    ("types", .items typeShape)]

/-- The schemas are equal if their metadata are compared as objects. -/
structure Same (s s' : Schema) : Prop where
  version : s.version = s'.version
  metadata : Alike (.obj s.metadata) (.obj s'.metadata)
  primitives : s.primitives = s'.primitives
  types : s.types = s'.types

theorem Same.refl (s : Schema) : s.Same s := ⟨rfl, .refl _, rfl, rfl⟩

theorem Same.trans {s t u : Schema} (h : s.Same t) (h' : t.Same u) : s.Same u :=
  ⟨h.version.trans h'.version, h.metadata.trans h'.metadata, h.primitives.trans h'.primitives,
    h.types.trans h'.types⟩

/-! ## §2 Fields, methods and constructors -/

theorem indifferent_texts (shape : Shape) : Indifferent shape texts Eq :=
  indifferent_list (indifferent_text _)

/-- The slots of a field. -/
def fieldSlots : List (Slot FieldParts) :=
  [⟨"name", .any, String, text, fun p v => { p with name := some v }⟩,
    ⟨"type", .any, String, text, fun p v => { p with type := some v }⟩,
    ⟨"modifiers", .any, List String, texts, fun p v => { p with modifiers := v }⟩]

theorem fieldMember_eq : fieldMember = slotted fieldSlots := by
  funext p key path n
  unfold fieldMember
  split
  case h_4 =>
    have hkey : ∀ e ∈ fieldSlots.map Slot.entry, key ≠ some e.1 := by
      simp_all [fieldSlots, Slot.entry]
    exact (slotted_of_unknown hkey p path n).symm
  all_goals rfl

theorem indifferent_readField : Indifferent fieldShape readField Eq := by
  have hswap : fieldSlots.Pairwise Slot.Commutes := by simp [fieldSlots, Slot.Commutes]
  have hread : ∀ slot ∈ fieldSlots, Indifferent slot.shape slot.read Eq := by
    simp only [fieldSlots, List.forall_mem_cons]
    exact ⟨indifferent_text _, indifferent_text _, indifferent_texts _, nofun⟩
  rw [readField, fieldMember_eq]
  exact indifferent_object_of_commutes hswap hread

/-- The slots of a method. -/
def methodSlots : List (Slot MethodParts) :=
  [⟨"name", .any, String, text, fun p v => { p with name := some v }⟩,
    ⟨"returns", .any, String, text, fun p v => { p with rest := { p.rest with returns := v } }⟩,
    ⟨"params", .any, List String, texts,
      fun p v => { p with rest := { p.rest with params := v } }⟩,
    ⟨"throws", .any, List String, texts,
      fun p v => { p with rest := { p.rest with throws := v } }⟩,
    ⟨"modifiers", .any, List String, texts,
      fun p v => { p with rest := { p.rest with modifiers := v } }⟩]

theorem methodMember_eq : methodMember = slotted methodSlots := by
  funext p key path n
  unfold methodMember
  split
  case h_6 =>
    have hkey : ∀ e ∈ methodSlots.map Slot.entry, key ≠ some e.1 := by
      simp_all [methodSlots, Slot.entry]
    exact (slotted_of_unknown hkey p path n).symm
  all_goals rfl

theorem indifferent_readMethod : Indifferent methodShape readMethod Eq := by
  have hswap : methodSlots.Pairwise Slot.Commutes := by simp [methodSlots, Slot.Commutes]
  have hread : ∀ slot ∈ methodSlots, Indifferent slot.shape slot.read Eq := by
    simp only [methodSlots, List.forall_mem_cons]
    exact ⟨indifferent_text _, indifferent_text _, indifferent_texts _, indifferent_texts _,
      indifferent_texts _, nofun⟩
  rw [readMethod, methodMember_eq]
  exact indifferent_object_of_commutes hswap hread

/-- The slots of a constructor. -/
def constructorSlots : List (Slot ConstructorDecl) :=
  [⟨"params", .any, List String, texts, fun c v => { c with params := v }⟩,
    ⟨"throws", .any, List String, texts, fun c v => { c with throws := v }⟩,
    ⟨"modifiers", .any, List String, texts, fun c v => { c with modifiers := v }⟩]

theorem constructorMember_eq : constructorMember = slotted constructorSlots := by
  funext c key path n
  unfold constructorMember
  split
  case h_4 =>
    have hkey : ∀ e ∈ constructorSlots.map Slot.entry, key ≠ some e.1 := by
      simp_all [constructorSlots, Slot.entry]
    exact (slotted_of_unknown hkey c path n).symm
  all_goals rfl

theorem indifferent_readConstructor : Indifferent constructorShape readConstructor Eq := by
  have hswap : constructorSlots.Pairwise Slot.Commutes := by
    simp [constructorSlots, Slot.Commutes]
  have hread : ∀ slot ∈ constructorSlots, Indifferent slot.shape slot.read Eq := by
    simp only [constructorSlots, List.forall_mem_cons]
    exact ⟨indifferent_texts _, indifferent_texts _, indifferent_texts _, nofun⟩
  rw [readConstructor, constructorMember_eq]
  exact indifferent_object_of_commutes hswap hread

/-! ## §3 Types -/

/-- The slots of a type. -/
def typeSlots : List (Slot TypeParts) :=
  [⟨"name", .any, String, text, fun p v => { p with name := some v }⟩,
    ⟨"kind", .any, String, text, fun p v => { p with rest := { p.rest with kind := v } }⟩,
    ⟨"modifiers", .any, List String, texts,
      fun p v => { p with rest := { p.rest with modifiers := v } }⟩,
    ⟨"extends", .any, Option String, textOrNull,
      fun p v => { p with rest := { p.rest with extends? := v } }⟩,
    ⟨"implements", .any, List String, texts,
      fun p v => { p with rest := { p.rest with implements := v } }⟩,
    ⟨"declaring", .any, Option String, textOrNull,
      fun p v => { p with rest := { p.rest with declaring := v } }⟩,
    ⟨"enclosing", .any, Option String, textOrNull,
      fun p v => { p with rest := { p.rest with enclosing := v } }⟩,
    ⟨"nested", .any, List String, texts,
      fun p v => { p with rest := { p.rest with nested := v } }⟩,
    ⟨"fields", .items fieldShape, List FieldDecl, list readField,
      fun p v => { p with rest := { p.rest with fields := v } }⟩,
    ⟨"methods", .items methodShape, List MethodDecl, list readMethod,
      fun p v => { p with rest := { p.rest with methods := v } }⟩,
    ⟨"constructors", .items constructorShape, List ConstructorDecl, list readConstructor,
      fun p v => { p with rest := { p.rest with constructors := v } }⟩]

theorem typeMember_eq : typeMember = slotted typeSlots := by
  funext p key path n
  unfold typeMember
  split
  case h_12 =>
    have hkey : ∀ e ∈ typeSlots.map Slot.entry, key ≠ some e.1 := by
      simp_all [typeSlots, Slot.entry]
    exact (slotted_of_unknown hkey p path n).symm
  all_goals rfl

theorem indifferent_readType : Indifferent typeShape readType Eq := by
  have hswap : typeSlots.Pairwise Slot.Commutes := by simp [typeSlots, Slot.Commutes]
  have hread : ∀ slot ∈ typeSlots, Indifferent slot.shape slot.read Eq := by
    simp only [typeSlots, List.forall_mem_cons]
    exact ⟨indifferent_text _, indifferent_text _, indifferent_texts _, indifferent_textOrNull _,
      indifferent_texts _, indifferent_textOrNull _, indifferent_textOrNull _,
      indifferent_texts _, indifferent_list indifferent_readField,
      indifferent_list indifferent_readMethod, indifferent_list indifferent_readConstructor, nofun⟩
  rw [readType, typeMember_eq]
  exact indifferent_object_of_commutes hswap hread

/-! ## §4 Schemas -/

/-- The slots of a schema. -/
def slots : List (Slot Schema) :=
  [⟨"version", .any, String, text, fun s v => { s with version := v }⟩,
    ⟨"metadata", .any, List (String × Json), anyObject, fun s v => { s with metadata := v }⟩,
    ⟨"primitives", .any, List String, texts, fun s v => { s with primitives := v }⟩,
    ⟨"types", .items typeShape, List TypeDecl, list readType, fun s v => { s with types := v }⟩]

theorem schemaMember_eq : schemaMember = slotted slots := by
  funext s key path n
  unfold schemaMember
  split
  case h_5 =>
    have hkey : ∀ e ∈ slots.map Slot.entry, key ≠ some e.1 := by
      simp_all [slots, Slot.entry]
    exact (slotted_of_unknown hkey s path n).symm
  all_goals rfl

theorem separate_slots : Separate slots Same where
  refl := .refl
  trans h h' := h.trans h'
  same := by
    simp only [slots, List.forall_mem_cons]
    exact ⟨fun v h => ⟨rfl, h.metadata, h.primitives, h.types⟩,
      fun v h => ⟨h.version, .refl _, h.primitives, h.types⟩,
      fun v h => ⟨h.version, h.metadata, rfl, h.types⟩,
      fun v h => ⟨h.version, h.metadata, h.primitives, rfl⟩, nofun⟩
  swap := by simp [slots, Slot.Commutes]
  moved := by
    have htypes : Indifferent (.items typeShape) (list readType) Eq :=
      indifferent_list indifferent_readType
    simp only [slots, List.forall_mem_cons]
    refine ⟨fun s => (indifferent_text _).mono ?_, fun s => indifferent_anyObject.mono ?_,
      fun s => (indifferent_texts _).mono ?_, fun s => htypes.mono ?_, nofun⟩
    · rintro v _ rfl
      exact .refl _
    · exact fun h => ⟨rfl, h, rfl, rfl⟩
    · rintro v _ rfl
      exact .refl _
    · rintro v _ rfl
      exact .refl _

theorem indifferent_readSchema : Indifferent shape readSchema Same := by
  rw [readSchema, schemaMember_eq]
  refine indifferent_object separate_slots fun hs ha => ?_
  cases ha
  exact ⟨_, rfl, hs⟩

/-- A file holds a schema if it spells a value that is read as one. -/
theorem ofOctets_eq_ok_iff {bs : Octets} {s : Schema} :
    ofOctets bs = .ok s ↔ ∃ n, Spells n (Text.scan bs) ∧ readSchema [] n = .ok s := by
  simp only [ofOctets, Document.read_eq_ok_iff, Document.ofOctets, spells_iff]

/-- A file that spells a rearranged schema holds the same schema. -/
theorem exists_ofOctets_rearranged {bs bs' : Octets} {s : Schema} (h : ofOctets bs = .ok s)
    {n n' : Node} (hn : Spells n (Text.scan bs))
    (hsteps : Relation.ReflTransGen (Rearranged shape) n n') (hn' : Spells n' (Text.scan bs')) :
    ∃ s', ofOctets bs' = .ok s' ∧ s.Same s' := by
  obtain ⟨root, hroot, hread⟩ := ofOctets_eq_ok_iff.1 h
  have heq : root = n := hroot.unique hn
  subst heq
  obtain ⟨s', hs', hsame⟩ := indifferent_readSchema.rearrangements .refl .trans hsteps hread
  exact ⟨s', ofOctets_eq_ok_iff.2 ⟨n', hn', hs'⟩, hsame⟩

end TypeAtlas.Schema
