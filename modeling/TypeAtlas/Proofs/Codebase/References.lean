import TypeAtlas.Proofs.Codebase.Descriptions
import TypeAtlas.Proofs.Codebase.Finding
import TypeAtlas.Proofs.Codebase.Unions
import TypeAtlas.Proofs.Session.OnRecord

/-!
# The references of classes

The direct references of a class are the types that its own annotations name, the classes next to
it, and the class above it unless that is a hierarchy root. All members of a union count alike, so
neither their order nor their places in unions within unions make a difference.

A function whose parameters cannot be looked at is described without parameters, so what their
annotations name is no reference, though what its result names is one. And an annotation that
cannot be evaluated names nothing, which the order of union members may decide.

Main statements: `direct_references_of_class` and `exists_run_directReferences_iff`.
-/

namespace TypeAtlas.Codebase

variable {code : Codebase} {t u : TypeName} {c : ClassId} {m m' : Memory} {w w' : World}

/-! ## §1 What a class refers to -/

/-- What a class refers to, itself and primitive types included. -/
inductive Memory.Refers (m : Memory) (config : Config) (c : ClassId) : TypeName → Prop where
  | around {u : TypeName} : m.Around c u → Refers m config c u
  | nested {d : ClassId} : d ∈ m.world.nestedOf c → Refers m config c (m.world.fullName d)
  | interface {d : ClassId} : d ∈ m.world.interfacesOf c → Refers m config c (m.world.fullName d)
  | above {d : ClassId} : d ∈ m.world.superOf c →
      config.isHierarchyRoot (m.world.fullName d) = false → Refers m config c (m.world.fullName d)
  | note {e : Option SpaceId × Note} {u : TypeName} : e ∈ m.world.notesOf c →
      m.world.NoteNames c e u → Refers m config c u

theorem Memory.refers_iff {config : Config} : m.Refers config c u ↔ m.Around c u ∨
    (∃ d ∈ m.world.nestedOf c, m.world.fullName d = u) ∨
    (∃ d ∈ m.world.interfacesOf c, m.world.fullName d = u) ∨
    (∃ d ∈ m.world.superOf c, config.isHierarchyRoot (m.world.fullName d) = false ∧
      m.world.fullName d = u) ∨
    ∃ e ∈ m.world.notesOf c, m.world.NoteNames c e u := by
  apply Iff.intro
  · intro h
    cases h with
    | around h => exact .inl h
    | nested hd => exact .inr (.inl ⟨_, hd, rfl⟩)
    | interface hd => exact .inr (.inr (.inl ⟨_, hd, rfl⟩))
    | above hd hroot => exact .inr (.inr (.inr (.inl ⟨_, hd, hroot, rfl⟩)))
    | note he hnames => exact .inr (.inr (.inr (.inr ⟨_, he, hnames⟩)))
  · rintro (h | ⟨d, hd, rfl⟩ | ⟨d, hd, rfl⟩ | ⟨d, hd, hroot, rfl⟩ | ⟨e, he, hnames⟩)
    · exact .around h
    · exact .nested hd
    · exact .interface hd
    · exact .above hd hroot
    · exact .note he hnames

/-! ## §2 Collecting references -/

/-- Look for a class and for the class around it, before and after the classes next to it have come
    up, as it is done to tell its references. -/
def situate (code : Codebase) (t : TypeName) : Asking Memory ClassId := do
  let c ← classOf code t
  let _ ← declaring code t
  let _ ← naming code World.nestedOf t
  let _ ← naming code World.interfacesOf t
  let _ ← naming code (fun w c => (w.superOf c).toList) t
  let _ ← declaring code t
  return c

/-- The context of a codebase. -/
def context (code : Codebase) (config : Config) : Context Memory :=
  { provider := provider code, config }

/-- All that is asked on the way speaks of the class in the world at the end. -/
theorem exists_of_run_situate (hfound : (situate code t).run Memory.start = (.ok c, m)) :
    ∃ first second m₀ m₁ m₂ m₃ m₄, (classOf code t).run Memory.start = (.ok c, m₀) ∧
      (declaring code t).run m₀ = (.ok first, m₁) ∧
      (naming code World.nestedOf t).run m₁ =
        (.ok ((m.world.nestedOf c).map m.world.fullName), m₂) ∧
      (naming code World.interfacesOf t).run m₂ =
        (.ok ((m.world.interfacesOf c).map m.world.fullName), m₃) ∧
      (naming code (fun w c => (w.superOf c).toList) t).run m₃ =
        (.ok ((m.world.superOf c).toList.map m.world.fullName), m₄) ∧
      (declaring code t).run m₄ = (.ok second, m) ∧
      m₀.Sound code ∧ m₀.known.get? t = some c ∧ m₀.Keeps m ∧
      ∀ u, m.Around c u ↔ u ∈ first ∨ u ∈ second := by
  unfold situate at hfound
  -- the memories between the questions, in order
  obtain ⟨_, m₀, hclass, hfound⟩ := exists_of_run_bind hfound
  obtain ⟨first, m₁, hfirst, hfound⟩ := exists_of_run_bind hfound
  obtain ⟨_, m₂, hnested, hfound⟩ := exists_of_run_bind hfound
  obtain ⟨_, m₃, hinterfaces, hfound⟩ := exists_of_run_bind hfound
  obtain ⟨_, m₄, habove, hfound⟩ := exists_of_run_bind hfound
  obtain ⟨second, m₅, hsecond, hfound⟩ := exists_of_run_bind hfound
  cases hfound
  obtain ⟨-, hm₀, hc₀⟩ := (recalls_classOf code Memory.sound_start t).of_run hclass
  obtain ⟨hkeeps₁, hm₁, c₁, hc₁, hfirst'⟩ := (recalls_declaring code hm₀ t).of_run hfirst
  cases (hkeeps₁.known t c hc₀).symm.trans hc₁
  obtain ⟨hkeeps₂, hm₂, hnested'⟩ := keeps_of_run_naming code hm₁ hc₁
    (fun d hd => hm₁.closed.lt_of_mem_nestedOf hd)
    (fun w h => h.nestedOf hm₁.closed (hm₁.known t c hc₁)) hnested
  have hc₂ := hkeeps₂.known t c hc₁
  obtain ⟨hkeeps₃, hm₃, hinterfaces'⟩ := keeps_of_run_naming code hm₂ hc₂
    (fun d hd => hm₂.closed.lt_of_mem_interfacesOf hd)
    (fun w h => h.interfacesOf hm₂.closed (hm₂.known t c hc₂)) hinterfaces
  have hc₃ := hkeeps₃.known t c hc₂
  obtain ⟨hkeeps₄, hm₄, habove'⟩ := keeps_of_run_naming code hm₃ hc₃
    (fun d hd => hm₃.closed.lt_of_mem_superOf (Option.mem_toList.1 hd))
    (fun w h => congrArg Option.toList (h.superOf hm₃.closed (hm₃.known t c hc₃))) habove
  have hc₄ := hkeeps₄.known t c hc₃
  obtain ⟨hkeeps₅, hm₅, c₅, hc₅, hsecond'⟩ := (recalls_declaring code hm₄ t).of_run hsecond
  cases (hkeeps₅.known t c hc₄).symm.trans hc₅
  -- what is read off on the way is the same in the world at the end
  have hlast₃ : m₃.Keeps m := Trans.trans hkeeps₄ hkeeps₅
  have hlast₂ : m₂.Keeps m := Trans.trans hkeeps₃ hlast₃
  have hlast₁ : m₁.Keeps m := Trans.trans hkeeps₂ hlast₂
  rw [hnested' m hlast₂] at hnested
  rw [hinterfaces' m hlast₃] at hinterfaces
  rw [habove' m hkeeps₅] at habove
  refine ⟨first, second, m₀, m₁, m₂, m₃, m₄, hclass, hfirst, hnested, hinterfaces, habove, hsecond,
    hm₀, hc₀, Trans.trans hkeeps₁ hlast₁, ?_⟩
  intro u
  apply Iff.intro
  · exact fun h => .inr ((hsecond' u).2 h)
  · rintro (h | h)
    · exact ((hfirst' u).1 h).keeps hlast₁ hm₁ (hm₁.known t c hc₁)
    · exact (hsecond' u).1 h

/-- The class as it was when it was found is kept. -/
theorem exists_run_classOf_of_situate (hfound : (situate code t).run Memory.start = (.ok c, m)) :
    ∃ m₀, (classOf code t).run Memory.start = (.ok c, m₀) ∧
      m.world.info c = m₀.world.info c := by
  obtain ⟨-, -, m₀, -, -, -, -, hclass, -, -, -, -, -, hm₀, hc₀, hkeeps, -⟩ :=
    exists_of_run_situate hfound
  exact ⟨m₀, hclass, hkeeps.world.info (hm₀.known t c hc₀)⟩

/-- The types that the description of a class names, read off the world at the end: the two answers
    to the question for the class around it come with the rest. -/
def World.collected (w : World) (config : Config) (c : ClassId) (first second : Option TypeName) :
    List TypeName :=
  first.toList ++ (w.nestedOf c).map w.fullName ++ (w.interfacesOf c).map w.fullName ++
    ((w.superOf c).toList.map w.fullName).head?.toList.filter
      (fun n => !config.isHierarchyRoot n) ++ second.toList ++
    ((w.methodsOf c).map CallableDescription.method).flatMap Method.mentioned ++
    ((w.fieldsOf c).map FieldDescription.field).flatMap Field.mentioned

theorem exists_run_mentioned (config : Config)
    (hfound : (situate code t).run Memory.start = (.ok c, m)) :
    ∃ (first second : Option TypeName) (m' : Memory),
      ((context code config).mentioned t).run Memory.start =
        (.ok (m.world.collected config c first second), m') ∧
      ∀ u, m.Around c u ↔ u ∈ first ∨ u ∈ second := by
  obtain ⟨first, second, m₀, m₁, m₂, m₃, m₄, hclass, hfirst, hnested, hinterfaces, habove, hsecond,
    hm₀, hc₀, hkeeps, haround⟩ := exists_of_run_situate hfound
  -- every question after the first one finds the class known
  have hc := hkeeps.known t c hc₀
  have hfirst' := (run_declaring_of_run_classOf code hclass hc₀).trans hfirst
  have habove' : (do return (← naming code (fun w c => (w.superOf c).toList) t).head?).run m₃ =
      (.ok ((m.world.superOf c).toList.map m.world.fullName).head?, m₄) :=
    Asking.run_bind_of_ok habove
  obtain ⟨m₅, hmethods, hworld₅, hkeeps₅⟩ := exists_run_describing_of_known code hc
    World.methodsOf CallableDescription.mentions CallableDescription.method
  obtain ⟨m₆, hfields, -, -⟩ := exists_run_describing_of_known code (hkeeps₅.known t c hc)
    World.fieldsOf FieldDescription.mentions FieldDescription.field
  rw [hworld₅] at hfields
  refine ⟨first, second, m₆, ?_, haround⟩
  unfold Context.mentioned context provider
  dsimp only
  rw [Asking.run_bind_of_ok hfirst', Asking.run_bind_of_ok hnested,
    Asking.run_bind_of_ok hinterfaces, Asking.run_bind_of_ok habove',
    Asking.run_bind_of_ok hsecond, Asking.run_bind_of_ok hmethods, Asking.run_bind_of_ok hfields]
  rfl

/-- Nothing else has to succeed for the types to be collected: where they are, the class has been
    found with what is around it. -/
theorem exists_run_situate {config : Config} {ns : List TypeName}
    (hrun : ((context code config).mentioned t).run Memory.start = (.ok ns, m')) :
    ∃ c m, (situate code t).run Memory.start = (.ok c, m) := by
  unfold Context.mentioned context provider at hrun
  dsimp only at hrun
  obtain ⟨first, m₁, hfirst, hrun⟩ := exists_of_run_bind hrun
  obtain ⟨_, m₂, hnested, hrun⟩ := exists_of_run_bind hrun
  obtain ⟨_, m₃, hinterfaces, hrun⟩ := exists_of_run_bind hrun
  obtain ⟨_, m₄, habove, hrun⟩ := exists_of_run_bind hrun
  obtain ⟨second, m₅, hsecond, hrun⟩ := exists_of_run_bind hrun
  -- the first question begins with finding the class
  obtain ⟨_, m₀', hasking, -⟩ := exists_of_run_bind hfirst
  obtain ⟨c, m₀, hclass, -⟩ := exists_of_run_bind hasking
  obtain ⟨-, hm₀, hc₀⟩ := (recalls_classOf code Memory.sound_start t).of_run hclass
  rw [run_declaring_of_run_classOf code hclass hc₀] at hfirst
  obtain ⟨supers, m₄', hsupers, habove⟩ := exists_of_run_bind habove
  cases habove
  refine ⟨c, m₅, ?_⟩
  unfold situate
  rw [Asking.run_bind_of_ok hclass, Asking.run_bind_of_ok hfirst, Asking.run_bind_of_ok hnested,
    Asking.run_bind_of_ok hinterfaces, Asking.run_bind_of_ok hsupers,
    Asking.run_bind_of_ok hsecond]
  rfl

/-- What the class refers to is collected, and nothing else but what the parameter for the class may
    name. -/
theorem mem_collected {config : Config} {first second : Option TypeName}
    (haround : ∀ u, m.Around c u ↔ u ∈ first ∨ u ∈ second) (hu : isPrimitive u = false) :
    (m.Refers config c u → u ∈ m.world.collected config c first second) ∧
      (u ∈ m.world.collected config c first second →
        m.Refers config c u ∨ m.world.NamesOwner c u) := by
  have habove : u ∈ ((m.world.superOf c).toList.map m.world.fullName).head?.toList.filter
      (fun n => !config.isHierarchyRoot n) ↔ ∃ d ∈ m.world.superOf c,
        config.isHierarchyRoot (m.world.fullName d) = false ∧ m.world.fullName d = u := by
    cases m.world.superOf c with
    | none => simp
    | some d =>
      cases hroot : config.isHierarchyRoot (m.world.fullName d) with
      | true => simp [hroot]
      | false => simpa [hroot] using eq_comm
  -- only methods may mention more than is referred to
  have hmethods := World.mem_mentioned_methodsOf (w := m.world) (c := c) hu
  have hfields := World.mem_mentioned_fieldsOf_iff (w := m.world) (c := c) hu
  have hmem : u ∈ m.world.collected config c first second ↔
      m.Around c u ∨ (∃ d ∈ m.world.nestedOf c, m.world.fullName d = u) ∨
        (∃ d ∈ m.world.interfacesOf c, m.world.fullName d = u) ∨
        (∃ d ∈ m.world.superOf c, config.isHierarchyRoot (m.world.fullName d) = false ∧
          m.world.fullName d = u) ∨
        (∃ e ∈ m.world.fieldNotes c, m.world.NoteNames c e u) ∨
        u ∈ ((m.world.methodsOf c).map CallableDescription.method).flatMap Method.mentioned := by
    unfold World.collected
    simp only [List.mem_append, Option.mem_toList, Option.mem_def, List.mem_map, habove, hfields,
      haround]
    grind only
  have hnotes : (∃ e ∈ m.world.notesOf c, m.world.NoteNames c e u) ↔
      (∃ e ∈ m.world.fieldNotes c, m.world.NoteNames c e u) ∨
        ∃ e ∈ m.world.functionNotes c, m.world.NoteNames c e u := by
    unfold World.notesOf
    simp only [List.mem_append, or_and_right, exists_or]
  rw [hmem, Memory.refers_iff, hnotes]
  refine ⟨?_, ?_⟩
  · exact Or.imp_right (Or.imp_right (Or.imp_right (Or.imp_right (Or.imp_right hmethods.1))))
  · simp only [or_assoc]
    exact Or.imp_right (Or.imp_right (Or.imp_right (Or.imp_right (Or.imp_right hmethods.2))))

/-- A session in which nothing has been asked about a codebase. -/
def freshSession : Session Memory := { memory := Memory.start }

theorem exists_run_directReferences (config : Config)
    (hfound : (situate code t).run Memory.start = (.ok c, m)) :
    ∃ rs s, ((context code config).directReferences t).run freshSession = (.ok rs, s) ∧
      ∀ u, (u ≠ t → isPrimitive u = false → m.Refers config c u → u ∈ rs) ∧
        (u ∈ rs → u ≠ t ∧ isPrimitive u = false ∧
          (m.Refers config c u ∨ m.world.NamesOwner c u)) := by
  obtain ⟨first, second, m', hrun, haround⟩ := exists_run_mentioned config hfound
  refine ⟨_, _, Context.run_directReferences_of_mentioned rfl hrun, fun u => ?_⟩
  unfold Context.keepReferences
  rw [OrdSet.mem_ofList, List.mem_filter,
    show (context code config).provider.isPrimitive u = isPrimitive u from rfl]
  refine ⟨?_, ?_⟩
  · intro hne hu h
    exact ⟨(mem_collected haround hu).1 h, by simp [hu, hne]⟩
  · rintro ⟨hmem, hkept⟩
    simp only [Bool.and_eq_true, Bool.not_eq_true', bne_iff_ne] at hkept
    exact ⟨hkept.2, hkept.1, (mem_collected haround hkept.1).2 hmem⟩

/-- The direct references of a class are told if and only if it is found with what is around it. -/
theorem exists_run_directReferences_iff (config : Config) :
    (∃ rs s, ((context code config).directReferences t).run freshSession = (.ok rs, s)) ↔
      ∃ c m, (situate code t).run Memory.start = (.ok c, m) := by
  apply Iff.intro
  · rintro ⟨rs, s, hrun⟩
    rcases hmentioned : ((context code config).mentioned t).run Memory.start with ⟨f | ns, x⟩
    · have hfails := Context.run_directReferences_of_error (s := freshSession) rfl hmentioned
      rw [hfails] at hrun
      exact nomatch congrArg Prod.fst hrun
    · exact exists_run_situate hmentioned
  · rintro ⟨c, m, hfound⟩
    obtain ⟨rs, s, hrun, -⟩ := exists_run_directReferences config hfound
    exact ⟨rs, s, hrun⟩

/-! ## §3 Classes that are alike -/

/-- Evaluated annotations stand for the same. -/
def Note.same : Note → Note → Bool
  | .stated t, .stated t' => Term.same t t'
  | _, _ => false

/-- Two annotations of a class, each in a world of its own, differ in the order of union members
    only: as the terms that they were evaluated to, as what they were evaluated from, or as texts
    that can be evaluated both or neither. Names stand for the same on both sides. -/
inductive World.NotesAlike (w w' : World) (c : ClassId) :
    Option SpaceId × Note → Option SpaceId × Note → Prop where
  | same {s s' : Option SpaceId} {n n' : Note} :
      n.same n' = true → NotesAlike w w' c (s, n) (s', n')
  | stated {s s' : Option SpaceId} {scope scope' : Scope} {a a' : Hint} {t t' : Term} :
      scope.Agrees scope' → a.Reordered a' → a.eval? scope = some t → a'.eval? scope' = some t' →
      NotesAlike w w' c (s, .stated t) (s', .stated t')
  | deferred {s s' : Option SpaceId} {a a' : Hint} :
      (w.lateScope c s).Agrees (w'.lateScope c s') → a.Reordered a' →
      ((a.eval? (w.lateScope c s)).isSome ↔ (a'.eval? (w'.lateScope c s')).isSome) →
      NotesAlike w w' c (s, .deferred a) (s', .deferred a')

/-- The class has the same neighbours in both worlds, classes have the same names, and its
    annotations differ in the order of union members only. -/
structure Memory.Alike (m m' : Memory) (c : ClassId) : Prop where
  names : m'.world.fullName = m.world.fullName
  around : ∀ u, m.Around c u ↔ m'.Around c u
  nested : m'.world.nestedOf c = m.world.nestedOf c
  interfaces : m'.world.interfacesOf c = m.world.interfacesOf c
  above : m'.world.superOf c = m.world.superOf c
  notes : List.Forall₂ (m.world.NotesAlike m'.world c) (m.world.notesOf c) (m'.world.notesOf c)

theorem World.NotesAlike.noteNames_iff {e e' : Option SpaceId × Note}
    (h : w.NotesAlike w' c e e') (hnames : w'.fullName = w.fullName) :
    w.NoteNames c e u ↔ w'.NoteNames c e' u := by
  unfold World.NoteNames
  rw [hnames]
  cases h with
  | @same s s' n n' hsame =>
    cases n <;> cases n' <;> simp only [Note.same, Bool.false_eq_true] at hsame
    exact Term.names_iff_of_same hsame
  | stated hscope hreordered ha ha' => exact Hint.names_iff_of_reordered hscope _ hreordered ha ha'
  | @deferred s s' a a' hscope hreordered heval =>
    -- both are evaluated only now, and both of them or none
    unfold World.termOf
    dsimp only
    cases ha : a.eval? (w.lateScope c s) with
    | none =>
      have hnone : a'.eval? (w'.lateScope c s') = none := by
        rw [ha] at heval
        exact Option.not_isSome_iff_eq_none.1 fun h => nomatch heval.2 h
      rw [hnone]
    | some a₁ =>
      obtain ⟨a₂, ha₂⟩ := Option.isSome_iff_exists.1 (heval.1 (by rw [ha]; rfl))
      rw [ha₂]
      exact Hint.names_iff_of_reordered hscope a hreordered ha ha₂

theorem World.fullName_eq_of_map (h : w'.classes.map ClassInfo.fullName =
    w.classes.map ClassInfo.fullName) : w'.fullName = w.fullName := by
  have hinfo : ∀ (w : World) (d : ClassId), w.fullName d =
      (w.classes.map ClassInfo.fullName)[d]?.getD objectClass.fullName := by
    intro w d
    rw [List.getElem?_map]
    unfold World.fullName World.info
    cases w.classes[d]? <;> rfl
  funext d
  rw [hinfo, hinfo, h]

theorem exists_mem_iff_of_forall₂ {α : Type} {R : α → α → Prop} {p q : α → Prop} {as bs : List α}
    (h : List.Forall₂ R as bs) (hR : ∀ a b, R a b → (p a ↔ q b)) :
    (∃ a ∈ as, p a) ↔ ∃ b ∈ bs, q b := by
  induction h with
  | nil => simp
  | cons hab _ ih => simp only [List.exists_mem_cons_iff, hR _ _ hab, ih]

/-- For classes that stand in no other class, it can be computed that they are alike. -/
theorem Memory.alike_of_same
    (hnames : m'.world.classes.map ClassInfo.fullName = m.world.classes.map ClassInfo.fullName)
    (houter : (m.world.info c).declaringName? = none ∧ (m'.world.info c).declaringName? = none)
    (hnested : m'.world.nestedOf c = m.world.nestedOf c)
    (hinterfaces : m'.world.interfacesOf c = m.world.interfacesOf c)
    (habove : m'.world.superOf c = m.world.superOf c)
    (hlength : (m.world.notesOf c).length = (m'.world.notesOf c).length)
    (hnotes : ∀ p ∈ List.zip (m.world.notesOf c) (m'.world.notesOf c), p.1.2.same p.2.2 = true) :
    m.Alike m' c where
  names := World.fullName_eq_of_map hnames
  around u := by
    refine iff_of_false ?_ ?_
    · rintro ⟨_, _, hparent, -⟩
      exact nomatch houter.1.symm.trans hparent
    · rintro ⟨_, _, hparent, -⟩
      exact nomatch houter.2.symm.trans hparent
  nested := hnested
  interfaces := hinterfaces
  above := habove
  notes := List.forall₂_iff_zip.2 ⟨hlength, fun h => .same (hnotes _ h)⟩

theorem World.not_namesOwner (h : ∀ k ∈ (w.info c).members, k.name ≠ allocatorName) (u : TypeName) :
    ¬ w.NamesOwner c u := by
  rintro ⟨k, hk, hname, -⟩
  exact h k hk hname

theorem Memory.Alike.refers_iff {config : Config} (h : m.Alike m' c) :
    m.Refers config c u ↔ m'.Refers config c u := by
  have hnotes : (∃ e ∈ m.world.notesOf c, m.world.NoteNames c e u) ↔
      ∃ e ∈ m'.world.notesOf c, m'.world.NoteNames c e u :=
    exists_mem_iff_of_forall₂ h.notes fun e e' he => he.noteNames_iff h.names
  rw [Memory.refers_iff, Memory.refers_iff, h.around, h.nested, h.interfaces, h.above, h.names,
    hnotes]

/-! ## §4 Parameters -/

theorem exists_run_methods (hfound : (situate code t).run Memory.start = (.ok c, m)) :
    ∃ ds m', ((provider code).methods t).run Memory.start = (.ok ds, m') ∧
      List.Forall₂ (fun (d : Method) (k : Member) => d.name = k.name ∧
          (k.name ≠ allocatorName → d.argCount = k.callerParams.length)) ds
        ((m.world.info c).members.filter fun k => k.name != constructorName) := by
  obtain ⟨m₀, hclass, hinfo⟩ := exists_run_classOf_of_situate hfound
  refine ⟨_, _, run_describing code hclass World.methodsOf CallableDescription.mentions
    CallableDescription.method, ?_⟩
  unfold World.methodsOf
  rw [hinfo, List.map_map, List.forall₂_map_left_iff,
    List.forall₂_same]
  exact fun k _ => ⟨rfl, World.length_paramTypes_describe⟩

theorem exists_run_constructors (hfound : (situate code t).run Memory.start = (.ok c, m)) :
    ∃ ds m', ((provider code).constructors t).run Memory.start = (.ok ds, m') ∧
      List.Forall₂ (fun (d : Constructor) (k : Member) => d.params.length = k.callerParams.length)
        ds ((m.world.info c).members.find? fun k => k.name == constructorName).toList := by
  obtain ⟨m₀, hclass, hinfo⟩ := exists_run_classOf_of_situate hfound
  refine ⟨_, _, run_describing code hclass World.constructorsOf CallableDescription.mentions
    CallableDescription.constructor, ?_⟩
  unfold World.constructorsOf
  rw [hinfo, Option.toList_map, List.map_map,
    List.forall₂_map_left_iff, List.forall₂_same]
  intro k hk
  have hname := List.find?_some (Option.mem_toList.1 hk)
  exact World.length_paramTypes_describe (by rw [beq_iff_eq.1 hname]; decide)

/-! ## §5 Main statement -/

/-- Whatever can be described of a class is told. Its direct references are what it refers to,
    whatever the order of the members of unions. Its functions and its constructor have a place for
    each parameter that a caller gives something for. -/
theorem direct_references_of_class (config : Config)
    (hfound : (situate code t).run Memory.start = (.ok c, m)) :
    (∃ rs s, ((context code config).directReferences t).run freshSession = (.ok rs, s) ∧
      (∀ u, u ≠ t → isPrimitive u = false → m.Refers config c u → u ∈ rs) ∧
      (∀ u ∈ rs, u ≠ t ∧ isPrimitive u = false ∧
        (m.Refers config c u ∨ m.world.NamesOwner c u)) ∧
      ∀ code' m', (situate code' t).run Memory.start = (.ok c, m') → m.Alike m' c →
        (∀ u, ¬ m.world.NamesOwner c u) → (∀ u, ¬ m'.world.NamesOwner c u) →
        ∃ s', ((context code' config).directReferences t).run freshSession = (.ok rs, s')) ∧
    (∃ ds m', ((provider code).methods t).run Memory.start = (.ok ds, m') ∧
      List.Forall₂ (fun (d : Method) (k : Member) => d.name = k.name ∧
          (k.name ≠ allocatorName → d.argCount = k.callerParams.length)) ds
        ((m.world.info c).members.filter fun k => k.name != constructorName)) ∧
    ∃ ds m', ((provider code).constructors t).run Memory.start = (.ok ds, m') ∧
      List.Forall₂ (fun (d : Constructor) (k : Member) => d.params.length = k.callerParams.length)
        ds ((m.world.info c).members.find? fun k => k.name == constructorName).toList := by
  refine ⟨?_, exists_run_methods hfound, exists_run_constructors hfound⟩
  obtain ⟨rs, s, hrun, hmem⟩ := exists_run_directReferences config hfound
  refine ⟨rs, s, hrun, fun u => (hmem u).1, fun u => (hmem u).2, ?_⟩
  intro code' m' hfound' halike howner howner'
  obtain ⟨rs', s', hrun', hmem'⟩ := exists_run_directReferences config hfound'
  -- both sets are those of the types that the class refers to
  have heq : rs' = rs := by
    refine OrdSet.ext fun u => ?_
    apply Iff.intro
    · intro h
      obtain ⟨hne, hu, hrefers⟩ := (hmem' u).2 h
      exact (hmem u).1 hne hu (halike.refers_iff.2 (hrefers.resolve_right (howner' u)))
    · intro h
      obtain ⟨hne, hu, hrefers⟩ := (hmem u).2 h
      exact (hmem' u).1 hne hu (halike.refers_iff.1 (hrefers.resolve_right (howner u)))
  rw [heq] at hrun'
  exact ⟨s', hrun'⟩

/-- A module with three classes. The last one has a field, and a function with a parameter, that are
    annotated as given. -/
def unionModule (field param : Hint) : Module where
  name := ["pm"]
  items :=
    [.cls none "A" [] [] false, .cls none "B" [] [] false,
      .cls none "C" []
        [.field "a" field,
          .function {
            name := "f"
            params := [{ name := "self" }, { name := "b", hint := some param }] }] false]

/-- The last class has a field of the first or none, and a function that takes the second or a
    list. -/
def unionCodebase : Codebase :=
  ⟨[unionModule (.union [.name ["A"], .nothing])
    (.bars [.generic ["list"] [.name ["A"]], .name ["B"]])]⟩

/-- The same with the members of both unions in the other order. -/
def reorderedCodebase : Codebase :=
  ⟨[unionModule (.union [.nothing, .name ["A"]])
    (.bars [.name ["B"], .generic ["list"] [.name ["A"]]])]⟩

/-- The references of the last class are the first two, in whatever order its annotations are
    written. -/
theorem direct_references_of_unions :
    ∃ m m', (situate unionCodebase "pm.C").run Memory.start = (.ok 25, m) ∧
      (situate reorderedCodebase "pm.C").run Memory.start = (.ok 25, m') ∧ m.Alike m' 25 ∧
      (∀ u, u ≠ "pm.C" → isPrimitive u = false → m.Refers {} 25 u →
        u ∈ OrdSet.ofList ["pm.A", "pm.B"]) ∧
      (∀ u ∈ OrdSet.ofList ["pm.A", "pm.B"], m.Refers {} 25 u ∨ m.world.NamesOwner 25 u) ∧
      ∃ s, ((context reorderedCodebase {}).directReferences "pm.C").run freshSession =
        (.ok (OrdSet.ofList ["pm.A", "pm.B"]), s) := by
  have hfirst : ((situate unionCodebase "pm.C").run Memory.start).1.toOption = some 25 := by
    decide +kernel
  have hsecond : ((situate reorderedCodebase "pm.C").run Memory.start).1.toOption = some 25 := by
    decide +kernel
  have hrefs : (((context unionCodebase {}).directReferences "pm.C").run freshSession).1.toOption =
      some (OrdSet.ofList ["pm.A", "pm.B"]) := by decide +kernel
  have halike : ((situate unionCodebase "pm.C").run Memory.start).2.Alike
      ((situate reorderedCodebase "pm.C").run Memory.start).2 25 :=
    Memory.alike_of_same (by decide +kernel) (by decide +kernel) (by decide +kernel)
      (by decide +kernel) (by decide +kernel) (by decide +kernel) (by decide +kernel)
  have howner : ∀ u, ¬ ((situate unionCodebase "pm.C").run Memory.start).2.world.NamesOwner 25 u :=
    World.not_namesOwner (by decide +kernel)
  have howner' : ∀ u,
      ¬ ((situate reorderedCodebase "pm.C").run Memory.start).2.world.NamesOwner 25 u :=
    World.not_namesOwner (by decide +kernel)
  rcases hfound : (situate unionCodebase "pm.C").run Memory.start with ⟨f | c, m⟩ <;>
    rw [hfound] at hfirst halike howner <;> cases hfirst
  rcases hfound' : (situate reorderedCodebase "pm.C").run Memory.start with ⟨f | c, m'⟩ <;>
    rw [hfound'] at hsecond halike howner' <;> cases hsecond
  obtain ⟨⟨rs, s, hrun, hall, honly, hreordered⟩, -, -⟩ := direct_references_of_class {} hfound
  rw [hrun] at hrefs
  cases hrefs
  exact ⟨m, m', rfl, rfl, halike, hall, fun u hu => (honly u hu).2.2,
    hreordered _ m' hfound' halike howner howner'⟩

/-- A module with four classes. The second has a function whose parameters cannot be looked at, and
    the last two have fields of the first or none, written in another order. -/
def oddModule : Module where
  name := ["pm"]
  items :=
    [.cls none "A" [] [] false,
      .cls none "C" []
        [.function {
          name := "f"
          params := [{ name := "self" }, { name := "a", hint := some (.name ["A"]) }]
          isReadable := false }] false,
      .cls none "D" [] [.field "a" (.quote (.bars [.nothing, .nothing, .name ["A"]]))] false,
      .cls none "E" [] [.field "a" (.quote (.bars [.nothing, .name ["A"], .nothing]))] false]

/-- The direct references of a class of that module. -/
def oddReferences (t : TypeName) : Option NameSet :=
  (((context ⟨[oddModule]⟩ {}).directReferences t).run freshSession).1.toOption

/-- The annotation of a parameter that cannot be looked at names the first class, which is no
    reference of the second, and the parameter has no place in the description. Nothing can be
    made of two absent values with a bar between them, so the first class is a reference of the last
    class but not of the one before. -/
theorem unreadable_parameters_have_no_place :
    (∃ m, (situate ⟨[oddModule]⟩ "pm.C").run Memory.start = (.ok 24, m) ∧
      ∃ k ∈ (m.world.info 24).members, k.name = "f" ∧ k.takesOwner = true ∧
        k.function.params.tail.length = 1 ∧ ∃ p ∈ k.function.params.tail, ∃ n ∈ p.note,
          m.world.NoteNames 24 (some k.function.home, n) "pm.A") ∧
      isPrimitive "pm.A" = false ∧ oddReferences "pm.C" = some ∅ ∧
      ((((provider ⟨[oddModule]⟩).methods "pm.C").run Memory.start).1.toOption.map fun ds =>
        ds.map fun d => (d.name, d.argCount)) = some [("f", 0)] ∧
      oddReferences "pm.D" = some ∅ ∧ oddReferences "pm.E" = some (OrdSet.ofList ["pm.A"]) := by
  refine ⟨?_, by decide, by decide +kernel, by decide +kernel, by decide +kernel,
    by decide +kernel⟩
  have hfirst : ((situate ⟨[oddModule]⟩ "pm.C").run Memory.start).1.toOption = some 24 := by
    decide +kernel
  have hmember : ∃ k ∈ (((situate ⟨[oddModule]⟩ "pm.C").run
      Memory.start).2.world.info 24).members, k.name = "f" ∧ k.takesOwner = true ∧
        k.function.params.tail.length = 1 ∧ ∃ p ∈ k.function.params.tail, ∃ n ∈ p.note,
          Term.same (.cls 23) (((situate ⟨[oddModule]⟩ "pm.C").run
            Memory.start).2.world.termOf 24 (some k.function.home) n) = true := by decide +kernel
  have hname : ((situate ⟨[oddModule]⟩ "pm.C").run Memory.start).2.world.fullName 23 = "pm.A" := by
    decide +kernel
  rcases hfound : (situate ⟨[oddModule]⟩ "pm.C").run Memory.start with ⟨f | c, m⟩ <;>
    rw [hfound] at hfirst hmember hname <;> cases hfirst
  obtain ⟨k, hk, hf, howner, hlength, p, hp, n, hn, hsame⟩ := hmember
  refine ⟨m, rfl, k, hk, hf, howner, hlength, p, hp, n, hn, Term.Names.of_same ?_ hsame⟩
  exact hname ▸ .cls 23

end TypeAtlas.Codebase
