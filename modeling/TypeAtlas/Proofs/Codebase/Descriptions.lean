import Mathlib.Data.List.Basic
import Mathlib.Tactic.Tauto
import TypeAtlas.Proofs.Codebase.Annotations
import TypeAtlas.References

/-!
# What the descriptions of classes mention

A field mentions what its annotation names, a function what the annotations of its result and its
parameters name, whether it stands in the place of a type or among the extra types. The description
of a function has a place for each of its parameters but the one for the object or the class.

Main statements: `World.mem_mentioned_fieldsOf_iff`, `World.mem_mentioned_methodsOf` and
`World.length_paramTypes_describe`.
-/

namespace TypeAtlas.Codebase

variable {u : TypeName} {c : ClassId} {w : World}

/-! ## §1 Own annotations -/

/-- The parameters that a caller of the function gives something for, as far as they can be looked
    at: all but the one for the object or the class. The function that makes an object has one for
    the class, though it is called without an object. -/
def Member.callerParams (k : Member) : List Param :=
  let params := if k.function.isReadable then k.function.params else []
  if k.takesOwner ∨ k.name = allocatorName then params.tail else params

/-- The annotations of a function: those of its result and of what its callers give. -/
def Member.notes (k : Member) : List Note :=
  k.function.returns.toList ++ k.callerParams.filterMap Param.note

/-- The annotations of the fields of a class, each with the namespace in which its names are looked
    up. -/
def World.fieldNotes (w : World) (c : ClassId) : List (Option SpaceId × Note) :=
  let i := w.info c
  i.notes.map fun e => (w.loaded.get? i.module, e.2)

/-- The annotations of the functions of a class but the constructor, each with the namespace in
    which its names are looked up. -/
def World.functionNotes (w : World) (c : ClassId) : List (Option SpaceId × Note) :=
  ((w.info c).members.filter fun k => k.name != constructorName).flatMap fun k =>
    k.notes.map (Prod.mk (some k.function.home))

/-- The annotations that the references of a class are read off. -/
def World.notesOf (w : World) (c : ClassId) : List (Option SpaceId × Note) :=
  w.fieldNotes c ++ w.functionNotes c

/-- An annotation of the class, once it is evaluated, names the type. -/
def World.NoteNames (w : World) (c : ClassId) (e : Option SpaceId × Note) (u : TypeName) : Prop :=
  (w.termOf c e.1 e.2).Names w.fullName u

/-- The parameter for the class, of the function that makes an object, is annotated with the
    type. -/
def World.NamesOwner (w : World) (c : ClassId) (u : TypeName) : Prop :=
  ∃ k ∈ (w.info c).members, k.name = allocatorName ∧ ∃ p ∈ k.function.params.head?,
    ∃ n ∈ p.note, w.NoteNames c (some k.function.home, n) u

/-! ## §2 Fields -/

theorem FieldDescription.mentioned_field (d : FieldDescription) :
    d.field.mentioned = d.mentions.map Mention.name := by
  obtain ⟨name, modifiers, ms⟩ := d
  cases ms <;> rfl

theorem World.mem_mentioned_fieldsOf_iff (hu : isPrimitive u = false) :
    u ∈ ((w.fieldsOf c).map FieldDescription.field).flatMap Field.mentioned ↔
      ∃ e ∈ w.fieldNotes c, w.NoteNames c e u := by
  apply Iff.intro
  · intro h
    obtain ⟨_, hfield, hmentioned⟩ := List.mem_flatMap.1 h
    obtain ⟨_, hd, rfl⟩ := List.mem_map.1 hfield
    obtain ⟨e, he, rfl⟩ := List.mem_map.1 hd
    rw [FieldDescription.mentioned_field] at hmentioned
    exact ⟨_, List.mem_map_of_mem he, (Term.mem_mentions_iff _ hu).1 hmentioned⟩
  · rintro ⟨_, ha, hnames⟩
    obtain ⟨e, he, rfl⟩ := List.mem_map.1 ha
    refine List.mem_flatMap.2 ⟨_, List.mem_map_of_mem (List.mem_map_of_mem he), ?_⟩
    rw [FieldDescription.mentioned_field]
    exact (Term.mem_mentions_iff _ hu).2 hnames

/-! ## §3 Functions -/

theorem CallableDescription.mem_mentioned_method {d : CallableDescription} :
    u ∈ d.method.mentioned ↔
      u ∈ d.returns.map Mention.name ∨ ∃ ms ∈ d.params, u ∈ ms.map Mention.name := by
  -- the first type of each place stands in the place, the others are extra types
  have hsplit : ∀ ms : List Mention, u ∈ ms.map Mention.name ↔
      ms.head?.map Mention.name = some u ∨ u ∈ ms.tail.map Mention.name := by
    intro ms
    cases ms with
    | nil => simp
    | cons n ms => simp [eq_comm]
  have hparams : (∃ ms ∈ d.params, u ∈ ms.map Mention.name) ↔
      u ∈ d.paramTypes.filterMap id ∨ u ∈ (d.params.flatMap List.tail).map Mention.name := by
    have hheads : u ∈ d.paramTypes.filterMap id ↔
        ∃ ms ∈ d.params, ms.head?.map Mention.name = some u := by
      unfold paramTypes
      simp
    have htails : u ∈ (d.params.flatMap List.tail).map Mention.name ↔
        ∃ ms ∈ d.params, u ∈ ms.tail.map Mention.name := by
      rw [List.map_flatMap, List.mem_flatMap]
    rw [hheads, htails, ← exists_or]
    exact exists_congr fun ms => by rw [hsplit ms, ← and_or_left]
  have hmentioned : u ∈ d.method.mentioned ↔ d.returns.head?.map Mention.name = some u ∨
      u ∈ d.paramTypes.filterMap id ∨ u ∈ (d.params.flatMap List.tail).map Mention.name ∨
      u ∈ d.returns.tail.map Mention.name := by
    unfold Method.mentioned method extra
    simp only [List.mem_append, Option.mem_toList, List.not_mem_nil, or_false,
      List.map_append, or_assoc]
  rw [hmentioned, hparams, hsplit d.returns]
  tauto

theorem World.mem_mentionsOf_iff {f : Function} {note : Option Note} (hu : isPrimitive u = false) :
    u ∈ (w.mentionsOf c f note).map Mention.name ↔
      ∃ n ∈ note, w.NoteNames c (some f.home, n) u := by
  unfold World.mentionsOf
  cases note with
  | none => simp
  | some n => simp [Term.mem_mentions_iff _ hu, World.naming, World.NoteNames]

/-- The description of a function has a place for each of its parameters that a caller gives
    something for. -/
theorem World.params_describe {k : Member} (hk : k.name ≠ allocatorName) :
    (w.describe c k).params = k.callerParams.map fun p => w.mentionsOf c k.function p.note := by
  unfold World.describe Member.callerParams
  simp [hk]

theorem World.length_paramTypes_describe {k : Member} (hk : k.name ≠ allocatorName) :
    (w.describe c k).paramTypes.length = k.callerParams.length := by
  unfold CallableDescription.paramTypes
  rw [World.params_describe hk, List.length_map, List.length_map]

/-- The function that makes an object may have a place for the class as well. -/
theorem World.params_describe_cases (k : Member) :
    (w.describe c k).params = (k.callerParams.map fun p => w.mentionsOf c k.function p.note) ∨
      k.name = allocatorName ∧ ∃ p ∈ k.function.params.head?, (w.describe c k).params =
        w.mentionsOf c k.function p.note ::
          k.callerParams.map fun p => w.mentionsOf c k.function p.note := by
  by_cases hk : k.name = allocatorName
  · unfold World.describe Member.callerParams
    by_cases howner : k.takesOwner = true
    · simp [howner]
    · cases hreadable : k.function.isReadable with
      | false => simp
      | true =>
        cases hparams : k.function.params with
        | nil => simp
        | cons p ps => exact .inr ⟨hk, p, rfl, by simp [hk, howner]⟩
  · exact .inl (World.params_describe hk)

/-- What the annotations of a function name is what its result and the parameters for its callers
    mention. -/
theorem World.exists_notes_iff {k : Member} (hu : isPrimitive u = false) :
    (∃ n ∈ k.notes, w.NoteNames c (some k.function.home, n) u) ↔
      u ∈ (w.describe c k).returns.map Mention.name ∨
        ∃ ms ∈ k.callerParams.map fun p => w.mentionsOf c k.function p.note,
          u ∈ ms.map Mention.name := by
  have hreturns : u ∈ (w.describe c k).returns.map Mention.name ↔
      ∃ n ∈ k.function.returns, w.NoteNames c (some k.function.home, n) u :=
    World.mem_mentionsOf_iff hu
  rw [hreturns]
  simp only [List.mem_map (f := fun p : Param => w.mentionsOf c k.function p.note),
    exists_exists_and_eq_and, World.mem_mentionsOf_iff hu, Member.notes, List.mem_append,
    Option.mem_toList, List.mem_filterMap, or_and_right, exists_or]
  apply or_congr_right
  -- the annotations of parameters are those of the parameters that have one
  apply Iff.intro
  · rintro ⟨n, ⟨p, hp, hn⟩, hnames⟩
    exact ⟨p, hp, n, hn, hnames⟩
  · rintro ⟨p, hp, n, hn, hnames⟩
    exact ⟨n, ⟨p, hp, hn⟩, hnames⟩

/-- A function mentions what its annotations name, and nothing else but what the parameter for the
    class may name. -/
theorem World.mem_mentioned_describe {k : Member} (hk : k ∈ (w.info c).members)
    (hu : isPrimitive u = false) :
    ((∃ n ∈ k.notes, w.NoteNames c (some k.function.home, n) u) →
      u ∈ (w.describe c k).method.mentioned) ∧
    (u ∈ (w.describe c k).method.mentioned →
      (∃ n ∈ k.notes, w.NoteNames c (some k.function.home, n) u) ∨ w.NamesOwner c u) := by
  rw [World.exists_notes_iff hu, CallableDescription.mem_mentioned_method]
  rcases w.params_describe_cases (c := c) k with h | ⟨hname, p, hp, h⟩
  · rw [h]
    exact ⟨id, .inl⟩
  · -- there is a place for the class, which its callers do not fill
    rw [h, List.exists_mem_cons_iff, World.mem_mentionsOf_iff hu]
    refine ⟨Or.imp_right .inr, ?_⟩
    rintro (hn | ⟨n, hn, hnames⟩ | hms)
    · exact .inl (.inl hn)
    · exact .inr ⟨k, hk, hname, p, hp, n, hn, hnames⟩
    · exact .inl (.inr hms)

theorem World.mem_mentioned_methodsOf (hu : isPrimitive u = false) :
    ((∃ e ∈ w.functionNotes c, w.NoteNames c e u) →
      u ∈ ((w.methodsOf c).map CallableDescription.method).flatMap Method.mentioned) ∧
    (u ∈ ((w.methodsOf c).map CallableDescription.method).flatMap Method.mentioned →
      (∃ e ∈ w.functionNotes c, w.NoteNames c e u) ∨ w.NamesOwner c u) := by
  refine ⟨?_, ?_⟩
  · rintro ⟨e, he, hnames⟩
    obtain ⟨k, hk, he⟩ := List.mem_flatMap.1 he
    obtain ⟨n, hn, rfl⟩ := List.mem_map.1 he
    exact List.mem_flatMap.2 ⟨_, List.mem_map_of_mem (List.mem_map_of_mem hk),
      (World.mem_mentioned_describe (List.mem_filter.1 hk).1 hu).1 ⟨n, hn, hnames⟩⟩
  · intro h
    obtain ⟨_, hmethod, hmentioned⟩ := List.mem_flatMap.1 h
    obtain ⟨_, hd, rfl⟩ := List.mem_map.1 hmethod
    obtain ⟨k, hk, rfl⟩ := List.mem_map.1 hd
    refine ((World.mem_mentioned_describe (List.mem_filter.1 hk).1 hu).2 hmentioned).imp_left ?_
    rintro ⟨n, hn, hnames⟩
    exact ⟨_, List.mem_flatMap.2 ⟨k, hk, List.mem_map_of_mem hn⟩, hnames⟩

end TypeAtlas.Codebase
