import Mathlib.Data.Set.Basic
import Mathlib.Tactic.Tauto
import TypeAtlas.Proofs.Closure.Reach
import TypeAtlas.Step

/-!
# What questions add to a session

A provider that remembers nothing always gives the same answers, so the direct references of a type
are fixed, and a session only ever gains: types whose references are known, edges, and roots.
`Context.Yields` says of a question which outcome it has and what it adds, in every session whose
cache and graph agree with the provider; the rules in §4 compose it along a question.
-/

namespace TypeAtlas

/-! ## §1 Running a question -/

/-- After a question that succeeds the next one is asked in the state that it leaves. -/
theorem Asking.run_bind_of_ok {σ α β : Type} {m : Asking σ α} {k : α → Asking σ β} {s s' : σ}
    {a : α} (h : m.run s = (.ok a, s')) : (m >>= k).run s = (k a).run s' := by
  have hbind : (m >>= k).run s = ExceptT.bindCont (m := StateM σ) k (m.run s).1 (m.run s).2 := rfl
  rw [hbind, h]
  rfl

/-- After a question that fails no other one is asked. -/
theorem Asking.run_bind_of_error {σ α β : Type} {m : Asking σ α} {k : α → Asking σ β} {s s' : σ}
    {f : Failure} (h : m.run s = (.error f, s')) : (m >>= k).run s = (.error f, s') := by
  have hbind : (m >>= k).run s = ExceptT.bindCont (m := StateM σ) k (m.run s).1 (m.run s).2 := rfl
  rw [hbind, h]
  rfl

/-- Giving the answer another form changes neither failures nor the state. -/
theorem Asking.run_map {σ α β : Type} (m : Asking σ α) (form : α → β) (s : σ) :
    (m >>= fun a => pure (form a)).run s = ((m.run s).1.map form, (m.run s).2) := by
  rcases hrun : m.run s with ⟨f | a, s'⟩
  · exact run_bind_of_error hrun
  · exact run_bind_of_ok hrun

theorem Asking.map_eq_error_iff {α β : Type} {r : Except Failure α} {form : α → β} {f : Failure} :
    r.map form = .error f ↔ r = .error f := by
  cases r with
  | ok a => exact ⟨nofun, nofun⟩
  | error f' => exact ⟨fun h => by cases h; rfl, fun h => by cases h; rfl⟩

/-- Two questions are answered only if the first one is, and the second one after it. -/
theorem Asking.exists_of_run_bind_eq_ok {σ α β : Type} {m : Asking σ α} {k : α → Asking σ β} {s : σ}
    {b : β} (h : ((m >>= k).run s).1 = .ok b) :
    ∃ a s', m.run s = (.ok a, s') ∧ ((k a).run s').1 = .ok b := by
  rcases hrun : m.run s with ⟨f | a, s'⟩
  · rw [run_bind_of_error hrun] at h
    cases h
  · rw [run_bind_of_ok hrun] at h
    exact ⟨a, s', rfl, h⟩

namespace Run

variable {σ α β : Type}

theorem run_ask (question : Asking σ α) (s : Session σ) :
    (ask question).run s =
      ((question.run s.memory).1, { s with memory := (question.run s.memory).2 }) := rfl

@[simp] theorem run_note (n : Notice) (s : Session σ) :
    (note n).run s = (.ok (), { s with log := s.log ++ [n] }) := rfl

@[simp] theorem run_updateGraph (f : Graph → Graph) (s : Session σ) :
    (updateGraph f).run s = (.ok (), { s with graph := f s.graph }) := rfl

@[simp] theorem run_graph (s : Session σ) : (graph : Run σ Graph).run s = (.ok s.graph, s) := rfl

@[simp] theorem run_get (s : Session σ) : (get : Run σ (Session σ)).run s = (.ok s, s) := rfl

/-- An outcome with an unresolved type told instead of failed on. -/
def told : Except Failure α → Except Failure (Except TypeName α)
  | .ok a => .ok (.ok a)
  | .error (.unresolved name) => .ok (.error name)
  | .error f => .error f

theorem run_orUnresolved (m : Run σ α) (s : Session σ) :
    (orUnresolved m).run s = (told (m.run s).1, (m.run s).2) := by
  unfold orUnresolved
  rw [ExceptT.run_mk]
  rcases m.run s with ⟨(_ | _ | _) | _, s'⟩ <;> rfl

end Run

/-! ## §2 The references that a provider fixes -/

/-- A session in which nothing has been asked. -/
def Session.fresh : Session Unit := { memory := () }

namespace Context

/-- The direct references of types, each computed in a session of its own. -/
def refs (ctx : Context Unit) : Refs := fun t =>
  ((ctx.directReferences t).run Session.fresh).1.toOption

/-- A session that some sequence of steps leads to. -/
def Reached (ctx : Context Unit) (s : Session Unit) : Prop :=
  ∃ steps : List Step, s = ctx.after Session.fresh steps

/-- A context whose provider fails to describe a type only by not resolving it, and whose capacity
    bounds the names in its descriptions. -/
structure Lawful (ctx : Context Unit) : Prop where
  /-- A type that cannot be described is not resolved, whatever is asked about it. -/
  silent : ∀ t, ctx.refs t = none → (ctx.mentioned t).run () = (.error (.unresolved t), ())
  /-- Neither are its methods, which the metrics of a type ask for first. -/
  mute : ∀ t, ctx.refs t = none →
    (ctx.provider.methods t).run () = (.error (.unresolved t), ())
  /-- A type that can be described has its members described. -/
  members : ∀ t rs, ctx.refs t = some rs →
    (∃ ms, ((ctx.provider.methods t).run ()).1 = .ok ms) ∧
    (∃ fs, ((ctx.provider.fields t).run ()).1 = .ok fs) ∧
    ∃ cs, ((ctx.provider.constructors t).run ()).1 = .ok cs
  /-- All names that are connected by references are among as many as the capacity says. -/
  ample : ∃ names : List TypeName, names.length ≤ ctx.provider.capacity () ∧
    ∀ u t, ctx.refs.Leads u t → t ∈ names

variable {ctx : Context Unit}

theorem run_directReferences_of_get? {t : TypeName} {rs : NameSet} {s : Session Unit}
    (hs : s.descriptors.get? t = some rs) : (ctx.directReferences t).run s = (.ok rs, s) := by
  unfold directReferences
  rw [Asking.run_bind_of_ok (Run.run_get s)]
  simp only [hs]
  rfl

/-- A type whose references are not known has them computed, noted, and kept if that succeeds. -/
theorem run_directReferences_of_none {t : TypeName} {s : Session Unit}
    (hs : s.descriptors.get? t = none) :
    (ctx.directReferences t).run s =
      match ((ctx.mentioned t).run ()).1 with
      | .ok ns =>
        (.ok (ctx.keepReferences t ns),
          Session.learn { s with log := s.log ++ [.computing t] } t (ctx.keepReferences t ns))
      | .error f => (.error f, { s with log := s.log ++ [.computing t] }) := by
  unfold directReferences
  rw [Asking.run_bind_of_ok (Run.run_get s)]
  simp only [hs]
  rw [Asking.run_bind_of_ok (Run.run_note _ s)]
  have hask := Run.run_ask (ctx.mentioned t) { s with log := s.log ++ [.computing t] }
  cases hanswer : ((ctx.mentioned t).run ()).1 with
  | error f =>
    rw [hanswer] at hask
    exact Asking.run_bind_of_error hask
  | ok ns =>
    rw [hanswer] at hask
    exact Asking.run_bind_of_ok hask

theorem refs_eq (t : TypeName) :
    ctx.refs t = ((ctx.mentioned t).run ()).1.toOption.map (ctx.keepReferences t) := by
  unfold refs
  -- nothing is cached in a fresh session
  rw [run_directReferences_of_none rfl]
  cases ((ctx.mentioned t).run ()).1 with
  | error f => rfl
  | ok ns => rfl

theorem mem_keepReferences_iff {t u : TypeName} {ns : List TypeName} :
    u ∈ ctx.keepReferences t ns ↔ u ∈ ns ∧ ctx.provider.isPrimitive u = false ∧ u ≠ t := by
  simp only [keepReferences, OrdSet.mem_ofList, List.mem_filter, Bool.and_eq_true,
    Bool.not_eq_true', bne_iff_ne]

/-- A direct reference is neither primitive nor the type itself. -/
theorem isPrimitive_of_leads {u t : TypeName} (h : ctx.refs.Leads u t) :
    ctx.provider.isPrimitive t = false ∧ t ≠ u := by
  obtain ⟨rs, hrs, ht⟩ := h
  rw [refs_eq] at hrs
  obtain ⟨ns, -, rfl⟩ := Option.map_eq_some_iff.1 hrs
  exact (mem_keepReferences_iff.1 ht).2

/-- No type references itself. -/
theorem ne_of_leads {u t : TypeName} (h : ctx.refs.Leads u t) : t ≠ u := (isPrimitive_of_leads h).2

/-- What walks of at least one reference lead to is not primitive. -/
theorem isPrimitive_of_reachesIn {start t : TypeName} {n : Nat}
    (h : ctx.refs.ReachesIn start (n + 1) t) : ctx.provider.isPrimitive t = false := by
  obtain ⟨u, -, hlead⟩ := h.exists_last
  exact (isPrimitive_of_leads hlead).1

/-! ## §3 Coherent sessions and gains -/

/-- The cache of a session holds the references that the provider fixes, and its graph their
    edges. -/
structure Coherent (ctx : Context Unit) (s : Session Unit) : Prop where
  /-- A cached set is the set of direct references. -/
  known : ∀ t rs, s.descriptors.get? t = some rs → ctx.refs t = some rs
  /-- The direct references of a cached type are edges. -/
  drawn : ∀ t rs, s.descriptors.get? t = some rs → ∀ u ∈ rs, (⟨u, t⟩ : Edge) ∈ s.graph.edges

end Context

/-- What a question may add to a session. -/
structure Gain where
  /-- Types whose direct references are known afterwards, and drawn in the graph. -/
  learned : Set TypeName
  /-- Further edges. -/
  edges : Set Edge
  /-- Roots. -/
  roots : Set TypeName

namespace Gain

instance : EmptyCollection Gain := ⟨⟨∅, ∅, ∅⟩⟩

instance : Union Gain := ⟨fun g h => ⟨g.learned ∪ h.learned, g.edges ∪ h.edges, g.roots ∪ h.roots⟩⟩

/-- The references of some types are learned. -/
def learning (ts : Set TypeName) : Gain := ⟨ts, ∅, ∅⟩

/-- Edges are drawn. -/
def drawing (es : Set Edge) : Gain := ⟨∅, es, ∅⟩

/-- A root is registered. -/
def rooting (t : TypeName) : Gain := ⟨∅, ∅, {t}⟩

@[simp] theorem empty_union (g : Gain) : ∅ ∪ g = g := by
  show Gain.mk (∅ ∪ g.learned) (∅ ∪ g.edges) (∅ ∪ g.roots) = g
  simp only [Set.empty_union]

@[simp] theorem union_empty (g : Gain) : g ∪ ∅ = g := by
  show Gain.mk (g.learned ∪ ∅) (g.edges ∪ ∅) (g.roots ∪ ∅) = g
  simp only [Set.union_empty]

theorem learning_union (ts us : Set TypeName) : learning ts ∪ learning us = learning (ts ∪ us) := by
  show Gain.mk (ts ∪ us) (∅ ∪ ∅) (∅ ∪ ∅) = _
  simp only [Set.union_empty]
  rfl

theorem learning_union_eq_self {ts : Set TypeName} {g : Gain} (h : ts ⊆ g.learned) :
    learning ts ∪ g = g := by
  show Gain.mk (ts ∪ g.learned) (∅ ∪ g.edges) (∅ ∪ g.roots) = g
  rw [Set.union_eq_self_of_subset_left h, Set.empty_union, Set.empty_union]

/-- The gains for all things of a list together. -/
def all {ι : Type} (gain : ι → Gain) (is : List ι) : Gain where
  learned := {t | ∃ i ∈ is, t ∈ (gain i).learned}
  edges := {e | ∃ i ∈ is, e ∈ (gain i).edges}
  roots := {t | ∃ i ∈ is, t ∈ (gain i).roots}

section All

variable {ι : Type} (gain : ι → Gain)

theorem all_nil : all gain [] = ∅ := by
  unfold all
  simp only [List.not_mem_nil, false_and, exists_false]
  rfl

theorem all_cons (i : ι) (is : List ι) : all gain (i :: is) = gain i ∪ all gain is := by
  unfold all
  simp only [List.mem_cons, exists_eq_or_imp]
  rfl

/-- Lists of the same things have the same gain. -/
theorem all_congr {is is' : List ι} (hsame : ∀ i, i ∈ is ↔ i ∈ is') :
    all gain is = all gain is' := by
  unfold all
  simp only [hsame]

end All

/-- An edge that a gain adds to the graph: a further one, or a direct reference of a type that was
    learned. -/
def Draws (ctx : Context Unit) (g : Gain) (e : Edge) : Prop :=
  e ∈ g.edges ∨ (e.source ∈ g.learned ∧ ctx.refs.Leads e.source e.target)

theorem draws_all_iff {ctx : Context Unit} {ι : Type} {gain : ι → Gain} {is : List ι} {e : Edge} :
    (all gain is).Draws ctx e ↔ ∃ i ∈ is, (gain i).Draws ctx e := by
  show (∃ i ∈ is, e ∈ (gain i).edges) ∨ (∃ i ∈ is, e.source ∈ (gain i).learned) ∧ _ ↔ _
  unfold Draws
  simp only [and_or_left, exists_or, ← and_assoc, exists_and_right]

end Gain

namespace Context

/-- The session `s'` is the session `s` with a gain added, whatever its log says. -/
structure Gained (ctx : Context Unit) (g : Gain) (s s' : Session Unit) : Prop where
  /-- The cache holds the types learned besides. -/
  descriptors : ∀ t rs, s'.descriptors.get? t = some rs ↔
    s.descriptors.get? t = some rs ∨ (t ∈ g.learned ∧ ctx.refs t = some rs)
  /-- The graph holds the edges drawn besides. -/
  edges : ∀ e, e ∈ s'.graph.edges ↔ e ∈ s.graph.edges ∨ g.Draws ctx e
  /-- The graph holds the roots registered besides. -/
  roots : ∀ t, t ∈ s'.graph.roots ↔ t ∈ s.graph.roots ∨ t ∈ g.roots

variable {ctx : Context Unit} {g h : Gain} {s s' s'' : Session Unit}

namespace Gained

/-- A session that differs in its log alone has gained nothing. -/
theorem of_eq (hd : s'.descriptors = s.descriptors) (hg : s'.graph = s.graph) :
    ctx.Gained ∅ s s' where
  descriptors t rs := by
    rw [hd]
    exact (or_iff_left fun hmem => hmem.1).symm
  edges e := by
    rw [hg]
    apply (or_iff_left _).symm
    intro hdraws
    rcases hdraws with hmem | ⟨hmem, -⟩
    · exact hmem
    · exact hmem
  roots t := by
    rw [hg]
    exact (or_iff_left fun hmem => hmem).symm

/-- Gains add up. -/
theorem trans (h₁ : ctx.Gained g s s') (h₂ : ctx.Gained h s' s'') : ctx.Gained (g ∪ h) s s'' where
  descriptors t rs := by
    rw [h₂.descriptors, h₁.descriptors, or_assoc, ← or_and_right]
    exact Iff.rfl
  edges e := by
    rw [h₂.edges, h₁.edges, or_assoc]
    apply or_congr_right
    show _ ↔ (e ∈ g.edges ∨ e ∈ h.edges) ∨ (e.source ∈ g.learned ∨ e.source ∈ h.learned) ∧ _
    unfold Gain.Draws
    tauto
  roots t := by
    rw [h₂.roots, h₁.roots, or_assoc]
    exact Iff.rfl

/-- A coherent session that gains stays coherent. -/
theorem coherent (hs : ctx.Coherent s) (hg : ctx.Gained g s s') : ctx.Coherent s' where
  known t rs ht := by
    -- cached before, or learned now
    rcases (hg.descriptors t rs).1 ht with hold | ⟨-, hnew⟩
    · exact hs.known t rs hold
    · exact hnew
  drawn t rs ht u hu := by
    rw [hg.edges]
    rcases (hg.descriptors t rs).1 ht with hold | ⟨hmem, hnew⟩
    · exact .inl (hs.drawn t rs hold u hu)
    · exact .inr (.inr ⟨hmem, rs, hnew, hu⟩)

/-- A gain determines cache and graph. -/
theorem unique (h₁ : ctx.Gained g s s') (h₂ : ctx.Gained g s s'') :
    s'.descriptors = s''.descriptors ∧ s'.graph = s''.graph := by
  -- maps and sets are determined by what is in them
  apply And.intro
  · apply OrdMap.ext_get?
    intro t
    apply Option.ext
    intro rs
    rw [h₁.descriptors, h₂.descriptors]
  · have hedges : s'.graph.edges = s''.graph.edges :=
      OrdSet.ext fun e => by rw [h₁.edges, h₂.edges]
    have hroots : s'.graph.roots = s''.graph.roots :=
      OrdSet.ext fun t => by rw [h₁.roots, h₂.roots]
    cases hg' : s'.graph
    cases hg'' : s''.graph
    rw [hg', hg''] at hedges hroots
    cases hedges
    cases hroots
    rfl

/-- A session that gains nothing keeps its cache and its graph. -/
theorem eq_of_empty (h : ctx.Gained ∅ s s') :
    s'.descriptors = s.descriptors ∧ s'.graph = s.graph := h.unique (.of_eq rfl rfl)

end Gained

/-! ## §4 Questions with a fixed outcome and gain -/

/-- In every coherent session the question has the outcome `r` and adds the gain `g`. -/
def Yields {α : Type} (ctx : Context Unit) (m : Run Unit α) (r : Except Failure α) (g : Gain) :
    Prop :=
  ∀ s, ctx.Coherent s → (m.run s).1 = r ∧ ctx.Gained g s (m.run s).2

/-- In every coherent session the question adds the gain `g`, whatever its outcome. -/
def Adds {α : Type} (ctx : Context Unit) (m : Run Unit α) (g : Gain) : Prop :=
  ∀ s, ctx.Coherent s → ctx.Gained g s (m.run s).2

section Rules

variable {α β : Type} {m : Run Unit α} {k : α → Run Unit β} {r : Except Failure β} {a : α}
  {f : Failure}

theorem Yields.adds {r : Except Failure α} (h : ctx.Yields m r g) : ctx.Adds m g :=
  fun s hs => (h s hs).2

theorem Yields.exists_run {r : Except Failure α} (h : ctx.Yields m r g) (hs : ctx.Coherent s) :
    ∃ s', m.run s = (r, s') ∧ ctx.Gained g s s' := by
  obtain ⟨hval, hgain⟩ := h s hs
  exact ⟨_, Prod.ext hval rfl, hgain⟩

theorem yields_pure (a : α) : ctx.Yields (pure a) (.ok a) ∅ :=
  fun _ _ => ⟨rfl, .of_eq rfl rfl⟩

theorem yields_throw (f : Failure) : ctx.Yields (throw f : Run Unit α) (.error f) ∅ :=
  fun _ _ => ⟨rfl, .of_eq rfl rfl⟩

theorem yields_note (n : Notice) : ctx.Yields (Run.note n) (.ok ()) ∅ :=
  fun _ _ => ⟨rfl, .of_eq rfl rfl⟩

/-- Asking the provider adds nothing, and has the same outcome every time. -/
theorem yields_ask (question : Asking Unit α) :
    ctx.Yields (Run.ask question) (question.run ()).1 ∅ :=
  fun _ _ => ⟨rfl, .of_eq rfl rfl⟩

/-- Asking the provider for what it is known to answer. -/
theorem yields_ask_of_eq {question : Asking Unit α} {r : Except Failure α}
    (h : (question.run ()).1 = r) : ctx.Yields (Run.ask question) r ∅ := h ▸ yields_ask question

/-- A question that goes on with the session yields what it yields for every session. -/
theorem yields_get_bind {k : Session Unit → Run Unit β} (hk : ∀ s, ctx.Yields (k s) r g) :
    ctx.Yields (get >>= k) r g := by
  intro s hs
  rw [Asking.run_bind_of_ok (Run.run_get s)]
  exact hk s s hs

theorem Yields.bind (hm : ctx.Yields m (.ok a) g) (hk : ctx.Yields (k a) r h) :
    ctx.Yields (m >>= k) r (g ∪ h) := by
  intro s hs
  obtain ⟨hval, hgain⟩ := hm s hs
  have hrun : m.run s = (.ok a, (m.run s).2) := Prod.ext hval rfl
  rw [Asking.run_bind_of_ok hrun]
  obtain ⟨hval', hgain'⟩ := hk _ (hgain.coherent hs)
  exact ⟨hval', hgain.trans hgain'⟩

/-- What comes first may add nothing. -/
theorem Yields.empty_bind (hm : ctx.Yields m (.ok a) ∅) (hk : ctx.Yields (k a) r g) :
    ctx.Yields (m >>= k) r g := by
  rw [← Gain.empty_union g]
  exact hm.bind hk

/-- What comes last may add nothing. -/
theorem Yields.bind_empty (hm : ctx.Yields m (.ok a) g) (hk : ctx.Yields (k a) r ∅) :
    ctx.Yields (m >>= k) r g := by
  rw [← Gain.union_empty g]
  exact hm.bind hk

theorem Yields.bind_error (hm : ctx.Yields m (.error f) g) :
    ctx.Yields (m >>= k) (.error f) g := by
  intro s hs
  obtain ⟨hval, hgain⟩ := hm s hs
  have hrun : m.run s = (.error f, (m.run s).2) := Prod.ext hval rfl
  rw [Asking.run_bind_of_error hrun]
  exact ⟨rfl, hgain⟩

theorem Yields.bind_adds (hm : ctx.Yields m (.ok a) g) (hk : ctx.Adds (k a) h) :
    ctx.Adds (m >>= k) (g ∪ h) := by
  intro s hs
  obtain ⟨hval, hgain⟩ := hm s hs
  have hrun : m.run s = (.ok a, (m.run s).2) := Prod.ext hval rfl
  rw [Asking.run_bind_of_ok hrun]
  exact hgain.trans (hk _ (hgain.coherent hs))

/-- Questions asked one after the other succeed and add up, if each of them succeeds. What they come
    to is shown backwards along the list. -/
theorem exists_yields_foldlM {f : β → α → Run Unit β}
    {P : β → List α → β → Gain → Prop} (hnil : ∀ b, P b [] b ∅)
    (hcons : ∀ b a as, ∃ b' g, ctx.Yields (f b a) (.ok b') g ∧
      ∀ c h, P b' as c h → P b (a :: as) c (g ∪ h)) (b : β) (as : List α) :
    ∃ c g, ctx.Yields (as.foldlM f b) (.ok c) g ∧ P b as c g := by
  induction as generalizing b with
  | nil => exact ⟨b, ∅, yields_pure b, hnil b⟩
  | cons a as ih =>
    obtain ⟨b', g, hfirst, hstep⟩ := hcons b a as
    obtain ⟨c, h, hrest, hP⟩ := ih b'
    rw [List.foldlM_cons]
    exact ⟨c, g ∪ h, hfirst.bind hrest, hstep c h hP⟩

/-- A question that goes on with the graph adds what it adds for every graph. -/
theorem adds_graph_bind {k : Graph → Run Unit β} (hk : ∀ gr, ctx.Adds (k gr) g) :
    ctx.Adds (Run.graph >>= k) g := by
  intro s hs
  rw [Asking.run_bind_of_ok (Run.run_graph s)]
  exact hk s.graph s hs

theorem Yields.orUnresolved {r : Except Failure α} (hm : ctx.Yields m r g) :
    ctx.Yields (Run.orUnresolved m) (Run.told r) g := by
  intro s hs
  obtain ⟨hval, hgain⟩ := hm s hs
  rw [Run.run_orUnresolved, hval]
  exact ⟨rfl, hgain⟩

end Rules

/-! ## §5 The writers -/

/-- A change of the graph that adds the same edges and roots to every graph has that gain. -/
theorem yields_updateGraph {f : Graph → Graph} {es : Set Edge} {ts : Set TypeName}
    (hedges : ∀ gr e, e ∈ (f gr).edges ↔ e ∈ gr.edges ∨ e ∈ es)
    (hroots : ∀ gr t, t ∈ (f gr).roots ↔ t ∈ gr.roots ∨ t ∈ ts) :
    ctx.Yields (Run.updateGraph f) (.ok ()) ⟨∅, es, ts⟩ := by
  intro s _
  refine ⟨rfl, { descriptors := ?descriptors, edges := ?edges, roots := ?roots }⟩
  case descriptors =>
    intro t rs
    exact (or_iff_left fun hmem => hmem.1).symm
  case edges =>
    -- no type is learned, so there are no further direct references to draw
    intro e
    rw [Run.run_updateGraph, hedges]
    exact or_congr_right (or_iff_left fun hmem => hmem.1).symm
  case roots =>
    intro t
    rw [Run.run_updateGraph, hroots]

/-- Drawing edges in the graph adds those that do not lead from a type to itself. -/
theorem yields_addEdges (new : List Edge) :
    ctx.Yields (Run.updateGraph fun gr => gr.addEdges new) (.ok ())
      (.drawing {e | e ∈ new ∧ e.target ≠ e.source}) := by
  apply yields_updateGraph
  · intro gr e
    rw [Graph.mem_edges_addEdges, or_comm]
    exact Iff.rfl
  · intro gr t
    exact (or_iff_left fun hmem => hmem).symm

/-- Registering a root adds it. -/
theorem yields_addRoot (t : TypeName) :
    ctx.Yields (Run.updateGraph fun gr => gr.addRoot t) (.ok ()) (.rooting t) := by
  apply yields_updateGraph
  · intro gr e
    exact (or_iff_left fun hmem => hmem).symm
  · intro gr u
    show u ∈ gr.roots.insert t ↔ _
    rw [OrdSet.mem_insert, or_comm]
    exact Iff.rfl

/-- The direct references of a type that can be described are learned, whether or not they were
    known before. -/
theorem yields_directReferences {t : TypeName} {rs : NameSet} (ht : ctx.refs t = some rs) :
    ctx.Yields (ctx.directReferences t) (.ok rs) (.learning {t}) := by
  intro s hs
  cases hget : s.descriptors.get? t with
  | some rs' =>
    -- cached: by coherence nothing is missing from cache and graph
    rw [run_directReferences_of_get? hget]
    cases (hs.known t rs' hget).symm.trans ht
    refine ⟨rfl, { descriptors := ?descriptors, edges := ?edges, roots := ?roots }⟩
    case descriptors =>
      intro u rs'
      apply (or_iff_left_of_imp _).symm
      intro hlearned
      obtain ⟨rfl, hu⟩ := hlearned
      cases hu.symm.trans ht
      exact hget
    case edges =>
      intro e
      apply (or_iff_left_of_imp _).symm
      intro hdraws
      rcases hdraws with hmem | ⟨hsource, rs', hrs', hmem⟩
      · exact absurd hmem (Set.notMem_empty e)
      · have hsource' : e.source = t := hsource
        rw [hsource'] at hrs'
        cases hrs'.symm.trans ht
        have hdrawn := hs.drawn t rs hget e.target hmem
        rwa [← hsource'] at hdrawn
    case roots =>
      intro u
      exact (or_iff_left fun hmem => hmem).symm
  | none =>
    -- not cached: computed from the provider's description, and kept
    rw [run_directReferences_of_none hget]
    have href := ht
    rw [refs_eq] at href
    cases hask : ((ctx.mentioned t).run ()).1 with
    | error f =>
      rw [hask] at href
      cases href
    | ok ns =>
      rw [hask] at href
      cases href
      refine ⟨rfl, { descriptors := ?descriptors, edges := ?edges, roots := ?roots }⟩
      case descriptors =>
        intro u rs'
        show (s.descriptors.insert t (ctx.keepReferences t ns)).get? u = some rs' ↔ _
        rw [OrdMap.get?_insert]
        by_cases hut : u = t
        · subst hut
          have hmem : u ∈ (Gain.learning {u}).learned := rfl
          simp [hget, hmem, ht]
        · have hmem : u ∉ (Gain.learning {t}).learned := hut
          simp [hut, hmem]
      case edges =>
        intro e
        show e ∈ (s.graph.addAll (ctx.keepReferences t ns).toList t).edges ↔ _
        rw [Graph.mem_edges_addAll, or_comm]
        apply or_congr_right
        apply Iff.intro
        · intro hadded
          obtain ⟨hmem, -, hsource⟩ := hadded
          exact .inr ⟨hsource, ctx.keepReferences t ns, by rw [hsource, ht], hmem⟩
        · intro hdraws
          rcases hdraws with hmem | ⟨hsource, hleads⟩
          · exact absurd hmem (Set.notMem_empty e)
          · -- no type references itself, so no edge is left out
            have hsource' : e.source = t := hsource
            have hne := ne_of_leads hleads
            obtain ⟨rs', hrs', hmem⟩ := hleads
            rw [hsource'] at hrs' hne
            cases hrs'.symm.trans ht
            exact ⟨hmem, hne, hsource'⟩
      case roots =>
        intro u
        exact (or_iff_left fun hmem => hmem).symm

/-- A type that cannot be described adds nothing. -/
theorem yields_directReferences_unresolved (hctx : ctx.Lawful) {t : TypeName}
    (ht : ctx.refs t = none) :
    ctx.Yields (ctx.directReferences t) (.error (.unresolved t)) ∅ := by
  intro s hs
  -- by coherence such a type is not cached
  have hget : s.descriptors.get? t = none := by
    rw [Option.eq_none_iff_forall_ne_some]
    intro rs hrs
    cases (hs.known t rs hrs).symm.trans ht
  rw [run_directReferences_of_none hget, hctx.silent t ht]
  exact ⟨rfl, .of_eq rfl rfl⟩

/-- By coherence a session answers as a fresh one does: it tells the direct references that the
    provider fixes, whether or not they are cached. -/
theorem refs_eq_some_iff_run (hctx : ctx.Lawful) {s : Session Unit} (hs : ctx.Coherent s)
    {t : TypeName} {rs : NameSet} :
    ctx.refs t = some rs ↔ ((ctx.directReferences t).run s).1 = .ok rs := by
  cases ht : ctx.refs t with
  | some rs' =>
    rw [(yields_directReferences ht s hs).1]
    exact ⟨fun h => by cases h; rfl, fun h => by cases h; rfl⟩
  | none =>
    rw [(yields_directReferences_unresolved hctx ht s hs).1]
    exact ⟨nofun, nofun⟩

end Context

end TypeAtlas
