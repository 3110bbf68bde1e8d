import TypeAtlas.Proofs.Codebase.Descriptions
import TypeAtlas.Proofs.Codebase.Finding
import TypeAtlas.References

/-!
# Questions to a codebase

A codebase can be asked which class a name stands for, and about the parts of the description of a
type. Every question first looks for the class of a name. It then tells the names of classes next
to that class, which become known by them; asked what is around the class, it looks for one class
more.

Main statements: `asked`, which says all that a question can do to what is remembered, and
`describes_of_known`, on what is answered about a name that a class is known by.
-/

namespace TypeAtlas

/-! ## §1 Questions -/

/-- The types that a constructor names. -/
def Constructor.mentioned (c : Constructor) : List TypeName := c.params.filterMap id ++ c.extra

namespace Codebase

/-- A part of the description of a type. -/
inductive Part where
  /-- Its fields. -/
  | fields
  /-- Its methods. -/
  | methods
  /-- Its constructors. -/
  | constructors
  /-- The interfaces that it implements. -/
  | interfaces
  /-- The type that it extends. -/
  | superType
  /-- The type that it is a member of. -/
  | declaringType
  /-- The type around it. -/
  | enclosingType
  /-- The types nested in it. -/
  | nestedTypes
  /-- Its modifiers. -/
  | modifiers
  deriving Repr, DecidableEq

/-- A question to a codebase. -/
inductive Question where
  /-- Which type a name stands for. -/
  | resolve (name : String)
  /-- Which types a name may stand for. -/
  | search (name : String)
  /-- What a part of the description of a type says. -/
  | about (part : Part) (t : TypeName)
  deriving Repr, DecidableEq

/-- The question about a part of a type, answered by the types that the answer names. -/
def Part.ask (p : Provider Memory) (t : TypeName) : Part → Asking Memory (List TypeName)
  | .fields => p.fields t >>= fun fs => pure (fs.flatMap Field.mentioned)
  | .methods => p.methods t >>= fun ms => pure (ms.flatMap Method.mentioned)
  | .constructors => p.constructors t >>= fun cs => pure (cs.flatMap Constructor.mentioned)
  | .interfaces => p.interfaces t
  | .superType => p.superType t >>= fun above => pure above.toList
  | .declaringType => p.declaringType t >>= fun around => pure around.toList
  | .enclosingType => p.enclosingType t >>= fun around => pure around.toList
  | .nestedTypes => p.nestedTypes t
  | .modifiers => p.modifiers t >>= fun _ => pure []

/-- Ask a question, answered by the types that the answer names. -/
def Question.ask (code : Codebase) : Question → Asking Memory (List TypeName)
  | .resolve name => (provider code).resolve name >>= fun t => pure [t]
  | .search name => (provider code).search name
  | .about part t => part.ask (provider code) t

/-- What is remembered after a question. -/
def Memory.after (code : Codebase) (m : Memory) (q : Question) : Memory := ((q.ask code).run m).2

/-- What a codebase remembers after questions, if nothing was asked before. -/
def after (code : Codebase) (qs : List Question) : Memory := qs.foldl (Memory.after code) .start

/-- The name whose class a question looks for first. -/
def Question.wanted : Question → TypeName
  | .resolve name => name
  | .search name => Text.strip name
  | .about _ t => t

/-- Whether a question asks for what is around a type. -/
def Question.looksAround : Question → Bool
  | .about .declaringType _ => true
  | .about .enclosingType _ => true
  | _ => false

/-- The classes among the types that the answer about a part of a class names, the one around the
    class apart. -/
def Part.classes (w : World) (c : ClassId) : Part → List ClassId
  | .fields => ((w.fieldsOf c).flatMap FieldDescription.mentions).filterMap Mention.cls
  | .methods => ((w.methodsOf c).flatMap CallableDescription.mentions).filterMap Mention.cls
  | .constructors =>
    ((w.constructorsOf c).flatMap CallableDescription.mentions).filterMap Mention.cls
  | .interfaces => w.interfacesOf c
  | .superType => (w.superOf c).toList
  | .nestedTypes => w.nestedOf c
  | _ => []

/-- The classes that the answer to a question names once it has found a class, the one around that
    class apart. -/
def Question.classes (w : World) (c : ClassId) : Question → List ClassId
  | .about part _ => part.classes w c
  | _ => [c]

/-! ## §2 Mentions of classes -/

/-- What is mentioned is one of the first `n` classes, by its name, or it is no class. -/
inductive Mention.Within (naming : Naming) (n : Nat) : Mention → Prop where
  /-- A class. -/
  | cls {c : ClassId} (h : c < n) : Within naming n ⟨naming.full c, some c⟩
  /-- The class of the absent value, or a type with arguments. -/
  | primitive {name : TypeName} (h : isPrimitive name = true) : Within naming n ⟨name, none⟩
  /-- A generic alias without arguments, or whatever else has an origin. -/
  | stray {name : TypeName} (h : StrayName name) : Within naming n ⟨name, none⟩

theorem Mention.mem_of_mem_distinct {x : Mention} {ms : List Mention}
    (hx : x ∈ Mention.distinct ms) : x ∈ ms := by
  induction ms with
  | nil => exact hx
  | cons y ms ih =>
    rw [Mention.distinct] at hx
    rcases List.mem_cons.1 hx with rfl | hx
    · exact .head _
    · exact .tail _ (ih (List.mem_filter.1 hx).1)

namespace Term

variable {naming : Naming} {n : Nat}

theorem Within.lt {c : ClassId} (h : (cls c).Within n) : c < n := by
  -- under names that tell this class from the others, only it is named
  let nameOf : ClassId → TypeName := fun d => if d = c then "" else " "
  have hself : nameOf c = "" := if_pos rfl
  rcases h nameOf (nameOf c) (.cls c) with ⟨d, hd, hname⟩ | hstray
  · have hdc : d = c := by
      by_contra hne
      rw [hself, show nameOf d = " " from if_neg hne] at hname
      exact absurd hname (by decide)
    exact hdc ▸ hd
  · exact absurd (hself ▸ hstray) not_strayName_empty

mutual

theorem within_of_mem_mentions (t : Term) (ht : t.Within n) :
    ∀ x ∈ t.mentions naming, x.Within naming n := by
  intro x hx
  cases t with
  | cls c =>
    rw [mentions] at hx
    exact List.mem_singleton.1 hx ▸ .cls ht.lt
  | nothing => exact List.mem_singleton.1 hx ▸ .primitive (by decide)
  | nothingType => exact List.mem_singleton.1 hx ▸ .primitive (by decide)
  | annotated t tags =>
    exact within_of_mem_mentions t (fun nameOf u hu => ht nameOf u (.annotated hu)) x hx
  | classVar t =>
    exact within_of_mem_mentions t (fun nameOf u hu => ht nameOf u (.classVar hu)) x hx
  | final t =>
    exact within_of_mem_mentions t (fun nameOf u hu => ht nameOf u (.final hu)) x hx
  | union barred ms =>
    rw [mentions] at hx
    refine within_of_mem_memberMentions ms ?_ x (Mention.mem_of_mem_distinct hx)
    exact fun t hmem nameOf u hu => ht nameOf u (.member hmem hu)
  | generic builtin head args =>
    rw [mentions] at hx
    exact List.mem_singleton.1 hx ▸ .primitive (isPrimitive_print_generic _ _ _ _ _)
  | «alias» name args =>
    rw [mentions] at hx
    rw [List.mem_singleton.1 hx]
    cases args with
    | nil => exact .stray (print_bareAlias naming.short false name ▸ strayName_bareAlias name)
    | cons arg args => exact .primitive (isPrimitive_print_alias _ _ _ _ _)
  | special s =>
    rw [mentions] at hx
    exact List.mem_singleton.1 hx ▸ .stray (strayName_special s)
  | _ => simp [mentions] at hx

theorem within_of_mem_memberMentions (ts : List Term) (hts : ∀ t ∈ ts, t.Within n) :
    ∀ x ∈ memberMentions naming ts, x.Within naming n := by
  intro x hx
  cases ts with
  | nil => simp [memberMentions] at hx
  | cons t ts =>
    obtain ⟨ht, hrest⟩ := List.forall_mem_cons.1 hts
    by_cases hnothing : t = .nothingType
    · subst hnothing
      rw [memberMentions] at hx
      exact within_of_mem_memberMentions ts hrest x hx
    · rw [memberMentions] at hx
      · rcases List.mem_append.1 hx with hx | hx
        · exact within_of_mem_mentions t ht x hx
        · exact within_of_mem_memberMentions ts hrest x hx
      · exact hnothing

end

end Term

namespace World.Closed

variable {code : Codebase} {w : World} {c : ClassId} {x : Mention}

/-- An annotation that is evaluated late names no class but those of the world. -/
theorem lateScope (hw : w.Closed code) (hc : c < w.classes.length) (space : Option SpaceId) :
    (w.lateScope c space).Within w.classes.length := by
  have hname : ∀ name v, w.lookupLate? c space name = some v → v.Within w.classes.length := by
    intro name v hv
    unfold World.lookupLate? at hv
    -- a constant, a name of the class or its own, or a name of its module or of the built-in one
    rcases Option.or_eq_some_iff.1 hv with hv | ⟨-, hv⟩
    · rcases Option.or_eq_some_iff.1 hv with hv | ⟨-, hv⟩
      · rcases Option.or_eq_some_iff.1 hv with hv | ⟨-, hv⟩
        · exact within_of_constant? hv
        · exact (hw.info c).names.get? hv
      · split at hv
        · cases hv
          exact hc
        · cases hv
    · rcases Option.or_eq_some_iff.1 hv with hv | ⟨-, hv⟩
      · obtain ⟨s, -, hv⟩ := Option.bind_eq_some_iff.1 hv
        exact (hw.space s).names.get? hv
      · exact (hw.space _).names.get? hv
  refine ⟨hw.annotatedId_lt, fun path v h => ?_⟩
  cases path with
  | nil => cases h
  | cons name rest =>
    obtain ⟨u, hu, hrest⟩ := Option.bind_eq_some_iff.1 h
    exact hw.follow? (hname name u hu) hrest

theorem termOf (hw : w.Closed code) (hc : c < w.classes.length) (space : Option SpaceId)
    {note : Note} (hnote : note.Within w.classes.length) :
    (w.termOf c space note).Within w.classes.length := by
  cases note with
  | stated t => exact hnote
  | deferred a =>
    unfold World.termOf
    dsimp only
    cases ha : a.eval? (w.lateScope c space) with
    | none => exact fun _ _ hu => nomatch hu
    | some t => exact Hint.within_eval? (hw.lateScope hc space) a ha

theorem within_of_mem_fieldsOf (hw : w.Closed code) (hc : c < w.classes.length)
    (hx : x ∈ (w.fieldsOf c).flatMap FieldDescription.mentions) :
    x.Within w.naming w.classes.length := by
  obtain ⟨d, hd, hx⟩ := List.mem_flatMap.1 hx
  obtain ⟨e, he, rfl⟩ := List.mem_map.1 hd
  exact Term.within_of_mem_mentions _ (hw.termOf hc _ ((hw.info c).notes e he)) x hx

theorem within_of_mem_mentionsOf (hw : w.Closed code) (hc : c < w.classes.length) {f : Function}
    {note : Option Note} (hnote : ∀ k ∈ note, k.Within w.classes.length)
    (hx : x ∈ w.mentionsOf c f note) : x.Within w.naming w.classes.length := by
  cases note with
  | none => cases hx
  | some note => exact Term.within_of_mem_mentions _ (hw.termOf hc _ (hnote note rfl)) x hx

theorem function_within (hw : w.Closed code) {k : Member} (hk : k ∈ (w.info c).members) :
    k.function.Within w.classes.length := by
  obtain ⟨⟨name, v⟩, he, hk⟩ := List.mem_filterMap.1 hk
  have hv := (hw.info c).names _ he
  obtain ⟨⟨f, kinds, takesOwner⟩, hcallable, hk⟩ := Option.bind_eq_some_iff.1 hk
  have hf : f.Within w.classes.length := by
    cases v <;> cases hcallable <;> exact hv
  dsimp only at hk
  split at hk
  · cases hk
    exact hf
  · cases hk

theorem within_of_mem_describe (hw : w.Closed code) (hc : c < w.classes.length) {k : Member}
    (hk : k ∈ (w.info c).members) (hx : x ∈ (w.describe c k).mentions) :
    x.Within w.naming w.classes.length := by
  have hf := hw.function_within hk
  rcases List.mem_append.1 hx with hx | hx
  · obtain ⟨ms, hms, hx⟩ := List.mem_flatten.1 hx
    obtain ⟨p, hp, rfl⟩ := List.mem_map.1 hms
    -- the parameters that have a place are among those of the function
    have hmem : p ∈ k.function.params := by
      have hreadable : ∀ p ∈ if k.function.isReadable then k.function.params else [],
          p ∈ k.function.params := by
        intro p hp
        split at hp
        · exact hp
        · cases hp
      split at hp
      · exact hreadable p (List.mem_of_mem_tail hp)
      · exact hreadable p hp
    exact hw.within_of_mem_mentionsOf hc (hf.params p hmem) hx
  · exact hw.within_of_mem_mentionsOf hc hf.returns hx

theorem within_of_mem_methodsOf (hw : w.Closed code) (hc : c < w.classes.length)
    (hx : x ∈ (w.methodsOf c).flatMap CallableDescription.mentions) :
    x.Within w.naming w.classes.length := by
  obtain ⟨d, hd, hx⟩ := List.mem_flatMap.1 hx
  obtain ⟨k, hk, rfl⟩ := List.mem_map.1 hd
  exact hw.within_of_mem_describe hc (List.mem_filter.1 hk).1 hx

theorem within_of_mem_constructorsOf (hw : w.Closed code) (hc : c < w.classes.length)
    (hx : x ∈ (w.constructorsOf c).flatMap CallableDescription.mentions) :
    x.Within w.naming w.classes.length := by
  obtain ⟨d, hd, hx⟩ := List.mem_flatMap.1 hx
  obtain ⟨k, hk, rfl⟩ := Option.map_eq_some_iff.1 (Option.mem_toList.1 hd)
  exact hw.within_of_mem_describe hc (List.mem_of_find?_eq_some hk) hx

/-- The classes that are told of a class are those of the world. -/
theorem lt_of_mem_classes (hw : w.Closed code) (hc : c < w.classes.length) {part : Part}
    {d : ClassId} (hd : d ∈ part.classes w c) : d < w.classes.length := by
  have hmentioned : ∀ ms : List Mention, (∀ x ∈ ms, x.Within w.naming w.classes.length) →
      d ∈ ms.filterMap Mention.cls → d < w.classes.length := by
    intro ms hms hd
    obtain ⟨x, hx, hcls⟩ := List.mem_filterMap.1 hd
    cases hms x hx with
    | cls h =>
      cases hcls
      exact h
    | _ => cases hcls
  cases part with
  | fields => exact hmentioned _ (fun x => hw.within_of_mem_fieldsOf hc) hd
  | methods => exact hmentioned _ (fun x => hw.within_of_mem_methodsOf hc) hd
  | constructors => exact hmentioned _ (fun x => hw.within_of_mem_constructorsOf hc) hd
  | interfaces => exact hw.lt_of_mem_interfacesOf hd
  | superType => exact hw.lt_of_mem_superOf (Option.mem_toList.1 hd)
  | nestedTypes => exact hw.lt_of_mem_nestedOf hd
  | _ => cases hd

end World.Closed

/-! ## §3 What a question does -/

variable {code : Codebase} {m m₁ m₂ : Memory} {q : Question} {t name : TypeName} {c d : ClassId}
  {f : Failure}

/-- What is remembered after a question. Its constructors are the ways in which a question comes to
    its end: without a class, by telling the names of classes next to one, and by looking for the
    class around one. -/
inductive Asked (code : Codebase) (m : Memory) (q : Question) : Memory → Prop where
  /-- There is no class of the name. -/
  | lost {f : Failure} {m₁ : Memory} (h : (classOf code q.wanted).run m = (.error f, m₁)) :
    Asked code m q m₁
  /-- There is a class of the name, and classes next to it come up. -/
  | told {c : ClassId} {m₁ : Memory} (h : (classOf code q.wanted).run m = (.ok c, m₁))
    (hq : q.looksAround = false) : Asked code m q ((q.classes m₁.world c).foldl .register m₁)
  /-- There is a class of the name, and no class around it. -/
  | alone {c : ClassId} {m₁ : Memory} (h : (classOf code q.wanted).run m = (.ok c, m₁))
    (hq : q.looksAround = true) (hnone : (m₁.world.info c).declaringName? = none) :
    Asked code m q m₁
  /-- The class around the class is not found by its name. -/
  | missed {c : ClassId} {m₁ m₂ : Memory} {parent : TypeName} {f : Failure}
    (h : (classOf code q.wanted).run m = (.ok c, m₁)) (hq : q.looksAround = true)
    (hparent : (m₁.world.info c).declaringName? = some parent)
    (hmissed : (classOf code parent).run m₁ = (.error f, m₂)) : Asked code m q m₂
  /-- The class around the class is found by its name, and comes up. -/
  | around {c d : ClassId} {m₁ m₂ : Memory} {parent : TypeName}
    (h : (classOf code q.wanted).run m = (.ok c, m₁)) (hq : q.looksAround = true)
    (hparent : (m₁.world.info c).declaringName? = some parent)
    (hfound : (classOf code parent).run m₁ = (.ok d, m₂)) : Asked code m q (m₂.register d)

/-- A class comes up with a question: it is next to the class that is found, or it is the one around
    it. -/
inductive Question.ComesUp (code : Codebase) (m : Memory) (q : Question) : ClassId → Prop where
  /-- The class is next to the one that is found. -/
  | told {c d : ClassId} {m₁ : Memory} (h : (classOf code q.wanted).run m = (.ok c, m₁))
    (hd : d ∈ q.classes m₁.world c) : ComesUp code m q d
  /-- The class is the one around the one that is found. -/
  | around {c d : ClassId} {m₁ m₂ : Memory} {parent : TypeName}
    (h : (classOf code q.wanted).run m = (.ok c, m₁)) (hq : q.looksAround = true)
    (hparent : (m₁.world.info c).declaringName? = some parent)
    (hfound : (classOf code parent).run m₁ = (.ok d, m₂)) : ComesUp code m q d

/-- The name is that of one of the classes, or of something that is no class. -/
def NamesOneOf (w : World) (cs : List ClassId) (u : TypeName) : Prop :=
  (∃ d ∈ cs, u = w.fullName d) ∨ isPrimitive u = true ∨ StrayName u

theorem Mention.Within.namesOneOf {w : World} {n : Nat} {x : Mention} {ms : List Mention}
    (hwithin : x.Within w.naming n) (hx : x ∈ ms) :
    NamesOneOf w (ms.filterMap Mention.cls) x.name := by
  cases hwithin with
  | @cls d h => exact .inl ⟨d, List.mem_filterMap.2 ⟨_, hx, rfl⟩, rfl⟩
  | primitive h => exact .inr (.inl h)
  | stray h => exact .inr (.inr h)

theorem namesOneOf_of_mem_map {w : World} {cs : List ClassId} {u : TypeName}
    (hu : u ∈ cs.map w.fullName) : NamesOneOf w cs u := by
  obtain ⟨d, hd, rfl⟩ := List.mem_map.1 hu
  exact .inl ⟨d, hd, rfl⟩

theorem FieldDescription.namesOneOf {w : World} {n : Nat} {ds : List FieldDescription}
    {u : TypeName}
    (hds : ∀ x ∈ ds.flatMap FieldDescription.mentions, x.Within w.naming n)
    (hu : u ∈ (ds.map FieldDescription.field).flatMap Field.mentioned) :
    NamesOneOf w ((ds.flatMap FieldDescription.mentions).filterMap Mention.cls) u := by
  obtain ⟨_, hfield, hu⟩ := List.mem_flatMap.1 hu
  obtain ⟨d, hd, rfl⟩ := List.mem_map.1 hfield
  rw [FieldDescription.mentioned_field] at hu
  obtain ⟨x, hx, rfl⟩ := List.mem_map.1 hu
  have hmem := List.mem_flatMap.2 ⟨d, hd, hx⟩
  exact (hds x hmem).namesOneOf hmem

/-- What the places of a function mention is mentioned by the function. -/
theorem CallableDescription.mem_mentions_of_mentioned {d : CallableDescription} {u : TypeName}
    (hu : u ∈ d.method.mentioned ∨ u ∈ d.constructor.mentioned) :
    ∃ x ∈ d.mentions, x.name = u := by
  have hplaces : u ∈ d.returns.map Mention.name ∨ ∃ ms ∈ d.params, u ∈ ms.map Mention.name := by
    refine hu.elim CallableDescription.mem_mentioned_method.1 fun hu => ?_
    -- a constructor names the same types as a method, the first one of the result apart
    refine CallableDescription.mem_mentioned_method.1 ?_
    unfold Constructor.mentioned constructor at hu
    unfold Method.mentioned method
    simp only [List.mem_append] at hu ⊢
    tauto
  unfold mentions
  rcases hplaces with hu | ⟨ms, hms, hu⟩
  · obtain ⟨x, hx, rfl⟩ := List.mem_map.1 hu
    exact ⟨x, List.mem_append_right _ hx, rfl⟩
  · obtain ⟨x, hx, rfl⟩ := List.mem_map.1 hu
    exact ⟨x, List.mem_append_left _ (List.mem_flatten.2 ⟨ms, hms, hx⟩), rfl⟩

theorem CallableDescription.namesOneOf {w : World} {n : Nat} {ds : List CallableDescription}
    {u : TypeName} (hds : ∀ x ∈ ds.flatMap CallableDescription.mentions, x.Within w.naming n)
    (hu : u ∈ (ds.map CallableDescription.method).flatMap Method.mentioned ∨
      u ∈ (ds.map CallableDescription.constructor).flatMap Constructor.mentioned) :
    NamesOneOf w ((ds.flatMap CallableDescription.mentions).filterMap Mention.cls) u := by
  obtain ⟨d, hd, hu⟩ : ∃ d ∈ ds, u ∈ d.method.mentioned ∨ u ∈ d.constructor.mentioned := by
    rcases hu with hu | hu
    · obtain ⟨_, hmethod, hu⟩ := List.mem_flatMap.1 hu
      obtain ⟨d, hd, rfl⟩ := List.mem_map.1 hmethod
      exact ⟨d, hd, .inl hu⟩
    · obtain ⟨_, hconstructor, hu⟩ := List.mem_flatMap.1 hu
      obtain ⟨d, hd, rfl⟩ := List.mem_map.1 hconstructor
      exact ⟨d, hd, .inr hu⟩
  obtain ⟨x, hx, rfl⟩ := mem_mentions_of_mentioned hu
  have hmem := List.mem_flatMap.2 ⟨d, hd, hx⟩
  exact (hds x hmem).namesOneOf hmem

theorem run_part_of_error (h : (classOf code t).run m = (.error f, m₁)) (part : Part) :
    (part.ask (provider code) t).run m = (.error f, m₁) := by
  have hasking : ∀ {α : Type} (answer : World → ClassId → α),
      (asking code answer t).run m = (.error f, m₁) := fun _ => Asking.run_bind_of_error h
  have hnaming : ∀ classes, (naming code classes t).run m = (.error f, m₁) :=
    fun _ => Asking.run_bind_of_error (hasking _)
  have hdeclaring : (declaring code t).run m = (.error f, m₁) :=
    Asking.run_bind_of_error (hasking _)
  cases part with
  | fields => exact Asking.run_bind_of_error (Asking.run_bind_of_error (hasking _))
  | methods => exact Asking.run_bind_of_error (Asking.run_bind_of_error (hasking _))
  | constructors => exact Asking.run_bind_of_error (Asking.run_bind_of_error (hasking _))
  | interfaces => exact hnaming _
  | superType => exact Asking.run_bind_of_error (Asking.run_bind_of_error (hnaming _))
  | declaringType => exact Asking.run_bind_of_error hdeclaring
  | enclosingType => exact Asking.run_bind_of_error hdeclaring
  | nestedTypes => exact hnaming _
  | modifiers => exact Asking.run_bind_of_error (Asking.run_bind_of_error (hasking _))

/-- Without a class of the name nothing else happens, and no type is told. -/
theorem run_ask_of_error (h : (classOf code q.wanted).run m = (.error f, m₁)) :
    ∃ r, (q.ask code).run m = (r, m₁) ∧ ∀ ns, r = .ok ns → ns = [] := by
  cases q with
  | resolve name =>
    exact ⟨_, Asking.run_bind_of_error (run_resolve_of_error h), nofun⟩
  | search name =>
    have hrun : ((Question.search name).ask code).run m =
        ((silenced f).map Option.toList, m₁) := by
      refine (Asking.run_map _ _ _).trans ?_
      exact congrArg (fun r => (r.1.map Option.toList, r.2)) (run_resolve?_of_error h)
    refine ⟨_, hrun, fun ns hns => ?_⟩
    cases f with
    | unresolved u =>
      cases hns
      rfl
    | _ => cases hns
  | about part t => exact ⟨_, run_part_of_error h part, nofun⟩

theorem run_part_of_ok (hm : m.Sound code) (h : (classOf code t).run m = (.ok c, m₁)) {part : Part}
    (hpart : (Question.about part t).looksAround = false) :
    ∃ ns, (part.ask (provider code) t).run m =
        (.ok ns, (part.classes m₁.world c).foldl .register m₁) ∧
      ∀ u ∈ ns, NamesOneOf m₁.world (part.classes m₁.world c) u := by
  obtain ⟨-, hm₁, hknown⟩ := (recalls_classOf code hm t).of_run h
  have hw := hm₁.closed
  have hc := hm₁.known t c hknown
  cases part with
  | fields =>
    refine ⟨_, Asking.run_bind_of_ok (run_describing code h _ _ _), fun u hu => ?_⟩
    exact FieldDescription.namesOneOf (fun x => hw.within_of_mem_fieldsOf hc) hu
  | methods =>
    refine ⟨_, Asking.run_bind_of_ok (run_describing code h _ _ _), fun u hu => ?_⟩
    exact CallableDescription.namesOneOf (fun x => hw.within_of_mem_methodsOf hc) (.inl hu)
  | constructors =>
    refine ⟨_, Asking.run_bind_of_ok (run_describing code h _ _ _), fun u hu => ?_⟩
    exact CallableDescription.namesOneOf (fun x => hw.within_of_mem_constructorsOf hc) (.inr hu)
  | interfaces => exact ⟨_, run_naming code h _, fun u hu => namesOneOf_of_mem_map hu⟩
  | superType =>
    have habove : ((provider code).superType t).run m =
        (.ok ((m₁.world.superOf c).toList.map m₁.world.fullName).head?,
          (m₁.world.superOf c).toList.foldl .register m₁) :=
      Asking.run_bind_of_ok (run_naming code h _)
    refine ⟨_, Asking.run_bind_of_ok habove, fun u hu => namesOneOf_of_mem_map ?_⟩
    exact List.mem_of_mem_head? (Option.mem_toList.1 hu)
  | declaringType => cases hpart
  | enclosingType => cases hpart
  | nestedTypes => exact ⟨_, run_naming code h _, fun u hu => namesOneOf_of_mem_map hu⟩
  | modifiers =>
    exact ⟨_, Asking.run_bind_of_ok (Asking.run_bind_of_ok (run_asking code h _)), nofun⟩

/-- With a class of the name, the types that are told are those next to it. -/
theorem run_ask_of_ok (hm : m.Sound code) (h : (classOf code q.wanted).run m = (.ok c, m₁))
    (hq : q.looksAround = false) :
    ∃ ns, (q.ask code).run m = (.ok ns, (q.classes m₁.world c).foldl .register m₁) ∧
      ∀ u ∈ ns, NamesOneOf m₁.world (q.classes m₁.world c) u := by
  have hself : ∀ u ∈ [m₁.world.fullName c], NamesOneOf m₁.world [c] u :=
    fun u hu => namesOneOf_of_mem_map hu
  cases q with
  | resolve name => exact ⟨_, Asking.run_bind_of_ok (run_resolve_of_ok h), hself⟩
  | search name => exact ⟨_, Asking.run_bind_of_ok (run_resolve?_of_ok h), hself⟩
  | about part t => exact run_part_of_ok hm h hq

section Around

variable {parent : TypeName}

theorem run_declaring_of_none (h : (classOf code t).run m = (.ok c, m₁))
    (hnone : (m₁.world.info c).declaringName? = none) :
    (declaring code t).run m = (.ok none, m₁) := by
  unfold declaring
  rw [Asking.run_bind_of_ok (run_asking code h _), hnone]
  rfl

/-- Asked for what is around a type, a class is looked for by the name of the one around it. -/
theorem run_declaring_of_some (h : (classOf code t).run m = (.ok c, m₁))
    (hparent : (m₁.world.info c).declaringName? = some parent) :
    (declaring code t).run m = (resolve? code parent).run m₁ := by
  unfold declaring
  rw [Asking.run_bind_of_ok (run_asking code h _), hparent]

theorem run_ask_around {r : Except Failure (Option TypeName)} (hq : q.looksAround = true)
    (hrun : (declaring code q.wanted).run m = (r, m₁)) :
    (q.ask code).run m = (r.map Option.toList, m₁) := by
  have hask : (q.ask code).run m =
      (((declaring code q.wanted).run m).1.map Option.toList,
        ((declaring code q.wanted).run m).2) := by
    unfold Question.looksAround at hq
    split at hq
    · exact Asking.run_map _ _ _
    · exact Asking.run_map _ _ _
    · cases hq
  rw [hask, hrun]

end Around

theorem asked (hm : m.Sound code) (q : Question) : Asked code m q (m.after code q) := by
  unfold Memory.after
  rcases h : (classOf code q.wanted).run m with ⟨f | c, m₁⟩
  · obtain ⟨r, hrun, -⟩ := run_ask_of_error h
    exact hrun ▸ .lost h
  · cases hq : q.looksAround with
    | false =>
      obtain ⟨ns, hrun, -⟩ := run_ask_of_ok hm h hq
      exact hrun ▸ .told h hq
    | true =>
      cases hparent : (m₁.world.info c).declaringName? with
      | none =>
        rw [run_ask_around hq (run_declaring_of_none h hparent)]
        exact .alone h hq hparent
      | some parent =>
        have haround := run_declaring_of_some h hparent
        rcases hfound : (classOf code parent).run m₁ with ⟨f | d, m₂⟩
        · rw [run_ask_around hq (haround.trans (run_resolve?_of_error hfound))]
          exact .missed h hq hparent hfound
        · rw [run_ask_around hq (haround.trans (run_resolve?_of_ok hfound))]
          exact .around h hq hparent hfound

/-- Every type that is told is a class that comes up, or it is no class. -/
theorem comesUp_of_mem_answer (hm : m.Sound code) {m' : Memory} {ns : List TypeName} {u : TypeName}
    (hrun : (q.ask code).run m = (.ok ns, m')) (hu : u ∈ ns) :
    (∃ d, q.ComesUp code m d ∧ u = m'.world.fullName d) ∨ isPrimitive u = true ∨ StrayName u := by
  rcases h : (classOf code q.wanted).run m with ⟨f | c, m₁⟩
  · obtain ⟨r, hask, hnone⟩ := run_ask_of_error h
    rw [hrun] at hask
    cases hask
    rw [hnone ns rfl] at hu
    cases hu
  · cases hq : q.looksAround with
    | false =>
      obtain ⟨_, hask, hnames⟩ := run_ask_of_ok hm h hq
      rw [hrun] at hask
      cases hask
      refine (hnames u hu).imp_left ?_
      rintro ⟨d, hd, rfl⟩
      exact ⟨d, .told h hd, by rw [Memory.world_foldl_register]⟩
    | true =>
      cases hparent : (m₁.world.info c).declaringName? with
      | none =>
        rw [run_ask_around hq (run_declaring_of_none h hparent)] at hrun
        cases hrun
        cases hu
      | some parent =>
        have haround := run_declaring_of_some h hparent
        rcases hfound : (classOf code parent).run m₁ with ⟨f | d, m₂⟩
        · -- the class around is not found, so no type is told
          rw [run_ask_around hq (haround.trans (run_resolve?_of_error hfound))] at hrun
          cases f <;> cases hrun
          cases hu
        · rw [run_ask_around hq (haround.trans (run_resolve?_of_ok hfound))] at hrun
          cases hrun
          refine .inl ⟨d, .around h hq hparent hfound, ?_⟩
          rw [Memory.world_register]
          exact List.mem_singleton.1 hu

end Codebase
end TypeAtlas
