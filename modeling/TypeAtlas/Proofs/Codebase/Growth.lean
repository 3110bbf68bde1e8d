import TypeAtlas.Codebase.Execution
import TypeAtlas.Proofs.Codebase.Unions

/-!
# What imports do to a world

Classes are only added to a world, whatever is imported and however that ends: a class that was made
before stays as it is, at its place. In a closed world, where all that is bound and annotated and
every base speaks of its classes alone, nothing can be reached but its classes, so it stays closed,
and every class of it is written in a module of the codebase.

Main statement: `grows_importModule`.
-/

namespace TypeAtlas

/-! ## §1 Running -/

/-- What running something in a state comes to, even if it fails: the state after it is sound, with
    the state before in the relation, and a result has the property. -/
structure Advances {ε σ α : Type} (R : σ → σ → Prop) (I : σ → Prop) (q : ExceptT ε (StateM σ) α)
    (s : σ) (P : σ → α → Prop) : Prop where
  keeps : R s (q.run s).2
  sound : I (q.run s).2
  result : ∀ a, (q.run s).1 = .ok a → P (q.run s).2 a

section Rules

variable {ε σ α β γ : Type} {R : σ → σ → Prop} {I : σ → Prop} {s : σ}
  {q : ExceptT ε (StateM σ) α} {k : α → ExceptT ε (StateM σ) β} {P : σ → α → Prop}
  {Q : σ → β → Prop}

theorem Advances.of_run (h : Advances R I q s P) {a : α} {s' : σ} (hrun : q.run s = (.ok a, s')) :
    R s s' ∧ I s' ∧ P s' a := by
  obtain ⟨hkeeps, hsound, hresult⟩ := h
  rw [hrun] at hkeeps hsound hresult
  exact ⟨hkeeps, hsound, hresult a rfl⟩

theorem advances_pure [Std.Refl R] (hs : I s) {a : α} (ha : P s a) :
    Advances R I (pure a : ExceptT ε (StateM σ) α) s P where
  keeps := Std.Refl.refl s
  sound := hs
  result b hb := by
    cases hb
    exact ha

theorem advances_throw [Std.Refl R] (hs : I s) (f : ε) :
    Advances R I (throw f : ExceptT ε (StateM σ) α) s P where
  keeps := Std.Refl.refl s
  sound := hs
  result _ hb := nomatch hb

theorem advances_modify {f : σ → σ} (hkeeps : R s (f s)) (hs : I (f s)) :
    Advances R I (modify f : ExceptT ε (StateM σ) PUnit) s fun _ _ => True where
  keeps := hkeeps
  sound := hs
  result _ _ := trivial

theorem advances_get_bind {k : σ → ExceptT ε (StateM σ) β} (h : Advances R I (k s) s Q) :
    Advances R I (get >>= k) s Q := ⟨h.keeps, h.sound, h.result⟩

theorem Advances.bind [Trans R R R] (hq : Advances R I q s P)
    (hk : ∀ a s', I s' → R s s' → P s' a → Advances R I (k a) s' Q) :
    Advances R I (q >>= k) s Q := by
  obtain ⟨hkeeps, hsound, hresult⟩ := hq
  have hbind : (q >>= k).run s = ExceptT.bindCont (m := StateM σ) k (q.run s).1 (q.run s).2 := rfl
  rcases hrun : q.run s with ⟨f | a, s'⟩
  · -- what follows a failure is not asked, so there is no answer to speak of
    rw [hrun] at hkeeps hsound hbind
    have hstop : (q >>= k).run s = (.error f, s') := hbind
    constructor
    · rw [hstop]
      exact hkeeps
    · rw [hstop]
      exact hsound
    · rw [hstop]
      intro b hb
      cases hb
  · rw [hrun] at hkeeps hsound hbind hresult
    have hgo : (q >>= k).run s = (k a).run s' := hbind
    obtain ⟨hkeeps', hsound', hresult'⟩ := hk a s' hsound hkeeps (hresult a rfl)
    constructor
    · rw [hgo]
      exact Trans.trans hkeeps hkeeps'
    · rw [hgo]
      exact hsound'
    · rw [hgo]
      exact hresult'

theorem advances_mapM [Std.Refl R] [Trans R R R] {f : γ → ExceptT ε (StateM σ) β} {cs : List γ}
    (hQ : ∀ s s' b, R s s' → Q s b → Q s' b)
    (hf : ∀ c ∈ cs, ∀ s', I s' → R s s' → Advances R I (f c) s' Q) (hs : I s) :
    Advances R I (cs.mapM f) s fun s bs => ∀ b ∈ bs, Q s b := by
  induction cs generalizing s with
  | nil =>
    rw [List.mapM_nil]
    exact advances_pure hs nofun
  | cons c cs ih =>
    rw [List.mapM_cons]
    refine (hf c (.head _) s hs (Std.Refl.refl s)).bind fun b s₁ hs₁ hkeeps₁ hb => ?_
    have hrest : ∀ c ∈ cs, ∀ s', I s' → R s₁ s' → Advances R I (f c) s' Q :=
      fun c hc s' hs' hkeeps => hf c (.tail _ hc) s' hs' (Trans.trans hkeeps₁ hkeeps)
    refine (ih hrest hs₁).bind fun bs s₂ hs₂ hkeeps₂ hbs => ?_
    exact advances_pure hs₂ (List.forall_mem_cons.2 ⟨hQ _ _ _ hkeeps₂ hb, hbs⟩)

theorem advances_forM [Std.Refl R] [Trans R R R] {f : γ → ExceptT ε (StateM σ) PUnit}
    {cs : List γ}
    (hf : ∀ c s, I s → Advances R I (f c) s fun _ _ => True) (hs : I s) :
    Advances R I (cs.forM f) s fun _ _ => True := by
  induction cs generalizing s with
  | nil => exact advances_pure hs trivial
  | cons c cs ih =>
    rw [List.forM_eq_forM, List.forM_cons]
    exact (hf c s hs).bind fun _ s₁ hs₁ _ _ => ih hs₁

end Rules

/-! ## §2 Entries -/

namespace Entries

variable {β : Type} {es : Entries β} {n : String} {b : β}

theorem mem_of_get? (h : es.get? n = some b) : (n, b) ∈ es := by
  induction es with
  | nil => cases h
  | cons e rest ih =>
    obtain ⟨k, v⟩ := e
    rw [get?] at h
    split at h
    case isTrue hk =>
      cases h
      subst hk
      exact .head _
    case isFalse => exact .tail _ (ih h)

theorem mem_put {e : String × β} (h : e ∈ put n b es) : e = (n, b) ∨ e ∈ es := by
  induction es with
  | nil => exact .inl (List.mem_singleton.1 h)
  | cons d rest ih =>
    obtain ⟨k, v⟩ := d
    rw [put] at h
    split at h
    case isTrue hk =>
      rcases List.mem_cons.1 h with rfl | hmem
      · exact .inl (by rw [hk])
      · exact .inr (.tail _ hmem)
    case isFalse =>
      rcases List.mem_cons.1 h with rfl | hmem
      · exact .inr (.head _)
      · exact (ih hmem).imp_right (.tail _)

end Entries

namespace Codebase

/-! ## §3 Terms of some classes -/

variable {n n' : Nat} {v : Value} {es : Entries Value} {notes : Entries Note} {t : Term}

/-- The name is that of something that is no class and yet named: of a generic alias without
    arguments, or of whatever else has an origin. -/
def StrayName (u : TypeName) : Prop := (∃ name, u = "typing." ++ name) ∨ ∃ s : Special, u = s.alone

theorem strayName_bareAlias (name : String) : StrayName ("typing." ++ name) := .inl ⟨name, rfl⟩

theorem strayName_special (s : Special) : StrayName s.alone := .inr ⟨s, rfl⟩

theorem not_strayName_empty : ¬ StrayName "" := by
  rintro (⟨name, h⟩ | ⟨s, h⟩)
  · have hlength := congrArg String.length h
    rw [String.length_append, show "".length = 0 from rfl, show "typing.".length = 7 from rfl]
      at hlength
    omega
  · cases s <;> exact absurd h (by decide)

/-- Whatever the classes are called, the term names none but the first `n`, and stray names. -/
def Term.Within (n : Nat) (t : Term) : Prop :=
  ∀ nameOf u, t.Names nameOf u → (∃ c < n, u = nameOf c) ∨ StrayName u

/-- What is kept of an annotation names no class but the first `n`. -/
def Note.Within (n : Nat) : Note → Prop
  | .stated t => t.Within n
  | .deferred _ => True

/-- The annotations of a function name no class but the first `n`. -/
structure Function.Within (n : Nat) (f : Function) : Prop where
  params : ∀ p ∈ f.params, ∀ note ∈ p.note, note.Within n
  returns : ∀ note ∈ f.returns, note.Within n

/-- The value is no class but one of the first `n`, and names no other one. -/
def Value.Within (n : Nat) : Value → Prop
  | .cls c => c < n
  | .function f => f.Within n
  | .static f => f.Within n
  | .classMethod f => f.Within n
  | .property f => f.Within n
  | .bound f => f.Within n
  | _ => True

/-- Nothing is bound to a value that is or names a class but the first `n`. -/
def BindsWithin (n : Nat) (es : Entries Value) : Prop := ∀ e ∈ es, e.2.Within n

/-- No annotation names a class but the first `n`. -/
def NotesWithin (n : Nat) (notes : Entries Note) : Prop := ∀ e ∈ notes, e.2.Within n

theorem Term.Within.mono (h : t.Within n) (hn : n ≤ n') : t.Within n' := fun nameOf u hu =>
  (h nameOf u hu).imp_left fun ⟨c, hc, hname⟩ => ⟨c, Nat.lt_of_lt_of_le hc hn, hname⟩

theorem Note.Within.mono {note : Note} (h : note.Within n) (hn : n ≤ n') : note.Within n' := by
  cases note with
  | stated t => exact Term.Within.mono h hn
  | deferred a => trivial

theorem Function.Within.mono {f : Function} (h : f.Within n) (hn : n ≤ n') : f.Within n' where
  params p hp note hnote := (h.params p hp note hnote).mono hn
  returns note hnote := (h.returns note hnote).mono hn

theorem Value.Within.mono (h : v.Within n) (hn : n ≤ n') : v.Within n' := by
  cases v with
  | cls c => exact Nat.lt_of_lt_of_le h hn
  | function f => exact Function.Within.mono h hn
  | static f => exact Function.Within.mono h hn
  | classMethod f => exact Function.Within.mono h hn
  | property f => exact Function.Within.mono h hn
  | bound f => exact Function.Within.mono h hn
  | _ => trivial

theorem BindsWithin.mono (h : BindsWithin n es) (hn : n ≤ n') : BindsWithin n' es :=
  fun e he => (h e he).mono hn

theorem NotesWithin.mono (h : NotesWithin n notes) (hn : n ≤ n') : NotesWithin n' notes :=
  fun e he => (h e he).mono hn

theorem bindsWithin_nil : BindsWithin n [] := fun _ he => nomatch he

theorem notesWithin_nil : NotesWithin n [] := fun _ he => nomatch he

theorem BindsWithin.get? {name : String} (h : BindsWithin n es) (hv : es.get? name = some v) :
    v.Within n := h _ (Entries.mem_of_get? hv)

theorem BindsWithin.put {name : String} (h : BindsWithin n es) (hv : v.Within n) :
    BindsWithin n (es.put name v) := by
  intro e he
  rcases Entries.mem_put he with rfl | he
  · exact hv
  · exact h e he

theorem NotesWithin.put {name : String} {note : Note} (h : NotesWithin n notes)
    (hnote : note.Within n) : NotesWithin n (notes.put name note) := by
  intro e he
  rcases Entries.mem_put he with rfl | he
  · exact hnote
  · exact h e he

theorem BindsWithin.erase {name : String} (h : BindsWithin n es) :
    BindsWithin n (es.erase name) := fun e he => h e (List.mem_filter.1 he).1

/-- No name is bound to a value that is or names a class but the first `n`, and the class of types
    with tags is one of these. -/
structure Scope.Within (n : Nat) (scope : Scope) : Prop where
  annotated : annotatedId < n
  lookup : ∀ path v, scope.lookup? path = some v → v.Within n

namespace Hint

variable {scope : Scope}

mutual

/-- An annotation names no class but those that its names stand for. -/
theorem within_eval? (hscope : scope.Within n) (a : Hint) {t : Term}
    (h : a.eval? scope = some t) : t.Within n := by
  intro nameOf u hu
  cases a with
  | name path =>
    obtain ⟨v, hv, rfl⟩ := Option.map_eq_some_iff.1 h
    have hwithin := hscope.lookup path v hv
    cases v with
    | cls c =>
      cases hu
      exact .inl ⟨c, hwithin, rfl⟩
    | _ => cases hu
  | optional a =>
    obtain ⟨s, hs, ht⟩ := names_eval?_optional h
    exact within_eval? hscope a hs nameOf u (ht.1 hu)
  | union ms =>
    obtain ⟨ss, hss, ht⟩ := names_eval?_union h
    obtain ⟨s, hs, hu⟩ := ht.1 hu
    exact within_evalAll? hscope ms hss s hs nameOf u hu
  | bars ms =>
    obtain ⟨ss, hss, ht⟩ := names_eval?_bars h
    obtain ⟨s, hs, hu⟩ := ht.1 hu
    exact within_evalAll? hscope ms hss s hs nameOf u hu
  | annotated a =>
    obtain ⟨s, hs, ht⟩ := names_eval?_annotated h
    exact within_eval? hscope a hs nameOf u (ht.1 hu)
  | classVar a =>
    obtain ⟨s, hs, ht⟩ := names_eval?_classVar h
    exact within_eval? hscope a hs nameOf u (ht.1 hu)
  | final a =>
    obtain ⟨s, hs, ht⟩ := names_eval?_final h
    exact within_eval? hscope a hs nameOf u (ht.1 hu)
  | bareAnnotated =>
    cases h
    cases hu
    exact .inl ⟨annotatedId, hscope.annotated, rfl⟩
  | generic head args => exact absurd hu (not_names_eval?_generic h)
  | «alias» name args =>
    exact .inr (((names_eval?_alias h).1 hu).2 ▸ strayName_bareAlias name)
  | special s =>
    cases h
    cases hu
    exact .inr (strayName_special s)
  | _ =>
    cases h
    cases hu

theorem within_evalAll? (hscope : scope.Within n) (as : List Hint) {ts : List Term}
    (h : evalAll? scope as = some ts) : ∀ t ∈ ts, t.Within n := by
  cases as with
  | nil =>
    cases h
    exact nofun
  | cons a as =>
    obtain ⟨t, rest, ht, hrest, rfl⟩ := evalAll?_cons h
    exact List.forall_mem_cons.2 ⟨within_eval? hscope a ht, within_evalAll? hscope as hrest⟩

end

theorem within_note? (hscope : scope.Within n) {deferred : Bool} {a : Hint} {note : Note}
    (h : a.note? scope deferred = some note) : note.Within n := by
  unfold note? at h
  split at h
  · cases h
    trivial
  · split at h
    · cases h
      trivial
    · obtain ⟨t, ht, rfl⟩ := Option.map_eq_some_iff.1 h
      exact within_eval? hscope _ ht

end Hint

/-! ## §4 Closed worlds -/

/-- A module of the codebase or of the language itself has the name. -/
def HasModule (code : Codebase) (name : String) : Prop :=
  (name = builtinModule ∨ name = typingModule) ∨ ∃ m ∈ code.modules, m.name.text = name

variable {code : Codebase} {w w' : World} {place : Place} {frame : Frame}

/-- The class is written in a module that there is, and what belongs to it is or names no class but
    the first `n`. -/
structure ClassInfo.Within (code : Codebase) (n : Nat) (i : ClassInfo) : Prop where
  module : code.HasModule i.module
  names : BindsWithin n i.names
  notes : NotesWithin n i.notes
  bases : ∀ b ∈ i.bases, b < n

/-- The namespace is that of a module that there is, and binds nothing that is or names a class but
    the first `n`. -/
structure Space.Within (code : Codebase) (n : Nat) (s : Space) : Prop where
  module : code.HasModule s.module
  names : BindsWithin n s.names

/-- All that is bound in a world, all that is annotated and every base of a class is or names
    classes of the world, and the builtin classes are among them. -/
structure World.Closed (code : Codebase) (w : World) : Prop where
  builtins : builtinClasses.length ≤ w.classes.length
  classes : ∀ i ∈ w.classes, i.Within code w.classes.length
  spaces : ∀ s ∈ w.spaces, s.Within code w.classes.length

theorem ClassInfo.Within.mono {i : ClassInfo} (h : i.Within code n) (hn : n ≤ n') :
    i.Within code n' where
  module := h.module
  names := h.names.mono hn
  notes := h.notes.mono hn
  bases b hb := Nat.lt_of_lt_of_le (h.bases b hb) hn

theorem Space.Within.mono {s : Space} (h : s.Within code n) (hn : n ≤ n') : s.Within code n' :=
  ⟨h.module, h.names.mono hn⟩

/-- The functions of the language itself have no annotations. -/
theorem within_builtinFunction (qualname : String) (params : Option (List String)) :
    (builtinFunction qualname params).Within n where
  params := by
    intro p hp note hnote
    obtain ⟨name, -, rfl⟩ := List.mem_map.1 hp
    cases hnote
  returns := nofun

theorem bindsWithin_builtinMembers (name : String) : BindsWithin n (builtinMembers name) := by
  unfold builtinMembers
  split <;> intro e he <;> simp only [List.mem_cons, List.not_mem_nil, or_false] at he
  case h_1 | h_2 | h_3 => exact he ▸ within_builtinFunction _ _
  case h_4 => rcases he with rfl | rfl | rfl | rfl <;> exact within_builtinFunction _ _

theorem bindsWithin_names_of_mem_builtinClasses {i : ClassInfo} (hi : i ∈ builtinClasses) :
    BindsWithin n i.names := by
  have hclass : ∀ name id bases ancestors,
      BindsWithin n (builtinClass name id bases ancestors).names :=
    fun name _ _ _ => bindsWithin_builtinMembers name
  simp only [builtinClasses, List.mem_append, List.mem_cons, List.mem_mapIdx, helperClasses,
    List.not_mem_nil, or_false] at hi
  rcases hi with (((rfl | rfl | rfl | rfl) | ⟨_, _, rfl⟩) | ⟨_, _, rfl⟩) | rfl
  case inr => exact bindsWithin_builtinMembers "Annotated"
  all_goals exact hclass _ _ _ _

theorem closed_start : World.start.Closed code where
  builtins := Nat.le_refl _
  classes := by
    have hplain : ∀ i ∈ builtinClasses, (i.module = builtinModule ∨ i.module = typingModule) ∧
        i.notes = [] ∧ ∀ b ∈ i.bases, b < builtinClasses.length := by decide
    intro i hi
    obtain ⟨hmodule, hnotes, hbases⟩ := hplain i hi
    exact {
      module := .inl hmodule
      names := bindsWithin_names_of_mem_builtinClasses hi
      notes := hnotes ▸ notesWithin_nil
      bases := hbases }
  spaces := by
    intro s hs
    cases List.mem_singleton.1 hs
    refine ⟨.inl (.inl rfl), fun e he => ?_⟩
    -- the only namespace is the one of the built-in module
    have hlength : ∀ i < (plainBuiltins ++ derivedBuiltins.map Prod.fst).length,
        builtinId i < builtinClasses.length := by decide
    rcases List.mem_cons.1 he with rfl | he
    · exact (by decide : objectId < builtinClasses.length)
    · rcases List.mem_append.1 he with he | he
      · obtain ⟨i, hi, rfl⟩ := List.mem_mapIdx.1 he
        exact hlength i hi
      · cases List.mem_singleton.1 he
        trivial

theorem World.Closed.info (hw : w.Closed code) (c : ClassId) :
    (w.info c).Within code w.classes.length := by
  unfold World.info
  cases hc : w.classes[c]? with
  | none => exact (closed_start.classes objectClass (.head _)).mono hw.builtins
  | some i => exact hw.classes i (List.mem_of_getElem? hc)

theorem World.Closed.space (hw : w.Closed code) (s : SpaceId) :
    (w.space s).Within code w.classes.length := by
  unfold World.space
  cases hs : w.spaces[s]? with
  | none => exact (closed_start.spaces builtinSpace (.head _)).mono hw.builtins
  | some sp => exact hw.spaces sp (List.mem_of_getElem? hs)

theorem Value.Within.throughClass (h : v.Within n) : v.throughClass.Within n := by
  cases v with
  | static f => exact h
  | classMethod f => exact h
  | _ => exact h

theorem World.Closed.attribute? (hw : w.Closed code) {name : String} {u : Value}
    (h : w.attribute? v name = some u) : u.Within w.classes.length := by
  cases v with
  | cls c =>
    obtain ⟨held, hheld, rfl⟩ := Option.map_eq_some_iff.1 h
    obtain ⟨d, -, hd⟩ := List.exists_of_findSome?_eq_some hheld
    exact ((hw.info d).names.get? hd).throughClass
  | module s => exact (hw.space s).names.get? h
  | _ => cases h

theorem World.Closed.follow? (hw : w.Closed code) {path : Dotted} {u : Value}
    (hv : v.Within w.classes.length) (h : w.follow? v path = some u) :
    u.Within w.classes.length := by
  unfold World.follow? at h
  induction path generalizing v with
  | nil =>
    cases h
    exact hv
  | cons name path ih =>
    rw [List.foldlM_cons] at h
    obtain ⟨next, hnext, hrest⟩ := Option.bind_eq_some_iff.1 h
    exact ih (hw.attribute? hnext) hrest

theorem World.Closed.addClass (hw : w.Closed code) {i : ClassInfo}
    (hi : i.Within code w.classes.length) :
    World.Closed code { w with classes := w.classes ++ [i] } where
  builtins := Nat.le_trans hw.builtins (by simp)
  classes := by
    intro j hj
    refine ClassInfo.Within.mono ?_ (by simp : w.classes.length ≤ (w.classes ++ [i]).length)
    rcases List.mem_append.1 hj with hj | hj
    · exact hw.classes j hj
    · exact List.mem_singleton.1 hj ▸ hi
  spaces s hs := (hw.spaces s hs).mono (by simp)

theorem World.Closed.updateSpace (hw : w.Closed code) (s : SpaceId) {f : Space → Space}
    (hf : ∀ sp, sp.Within code w.classes.length → (f sp).Within code w.classes.length) :
    (w.updateSpace s f).Closed code where
  builtins := hw.builtins
  classes := hw.classes
  spaces := by
    intro sp hsp
    obtain ⟨i, hi⟩ := List.mem_iff_getElem?.1 hsp
    rw [show (w.updateSpace s f).spaces = w.spaces.modify s f from rfl,
      List.getElem?_modify] at hi
    obtain ⟨old, hold, rfl⟩ := Option.map_eq_some_iff.1 hi
    have hwithin := hw.spaces old (List.mem_of_getElem? hold)
    split
    · exact hf old hwithin
    · exact hwithin

/-- What an effect binds or annotates is or names no class but the first `n`. -/
def Effect.Within (n : Nat) : Effect → Prop
  | .bind _ v => v.Within n
  | .unbind _ => True
  | .annotate _ note => note.Within n

theorem World.classes_apply (w : World) (s : SpaceId) (e : Effect) :
    (w.apply s e).classes = w.classes := by
  cases e <;> rfl

theorem World.Closed.apply (hw : w.Closed code) (s : SpaceId) {e : Effect}
    (he : e.Within w.classes.length) : (w.apply s e).Closed code := by
  cases e with
  | bind name v => exact hw.updateSpace s fun sp hsp => ⟨hsp.module, hsp.names.put he⟩
  | unbind name => exact hw.updateSpace s fun sp hsp => ⟨hsp.module, hsp.names.erase⟩
  | annotate name note => exact hw

/-- What the body of a class has bound and annotated is or names no class but the first `n`. -/
structure Frame.Within (n : Nat) (frame : Frame) : Prop where
  names : BindsWithin n frame.names
  notes : NotesWithin n frame.notes

theorem Frame.Within.mono (h : frame.Within n) (hn : n ≤ n') : frame.Within n' :=
  ⟨h.names.mono hn, h.notes.mono hn⟩

/-- The frame of a place, if there is one, binds and annotates nothing but with the first `n`
    classes. -/
def Place.Within (n : Nat) (place : Place) : Prop :=
  ∀ frame, place.frame = some frame → frame.Within n

theorem Place.Within.mono (h : place.Within n) (hn : n ≤ n') : place.Within n' :=
  fun frame hframe => (h frame hframe).mono hn

theorem within_of_constant? {name : String} (h : constant? name = some v) : v.Within n := by
  unfold constant? at h
  split at h
  · cases h
    trivial
  · split at h
    · cases h
      trivial
    · cases h

theorem World.Closed.annotatedId_lt (hw : w.Closed code) : annotatedId < w.classes.length :=
  Nat.lt_of_lt_of_le (by decide : annotatedId < builtinClasses.length) hw.builtins

theorem World.Closed.scope (hw : w.Closed code) (hplace : place.Within w.classes.length) :
    (place.scope w).Within w.classes.length := by
  have hname : ∀ name u, place.lookup? w name = some u → u.Within w.classes.length := by
    intro name u hu
    unfold Place.lookup? at hu
    -- a constant, or a name of a frame, of the module or of the built-in ones
    rcases Option.or_eq_some_iff.1 hu with hconstant | ⟨-, hu⟩
    · exact within_of_constant? hconstant
    · rcases Option.or_eq_some_iff.1 hu with hu | ⟨-, hu⟩
      · rcases Option.or_eq_some_iff.1 hu with hu | ⟨-, hu⟩
        · obtain ⟨frame, hframe, hu⟩ := Option.bind_eq_some_iff.1 hu
          exact (hplace frame hframe).names.get? hu
        · exact (hw.space _).names.get? hu
      · exact (hw.space _).names.get? hu
  refine ⟨hw.annotatedId_lt, fun path v h => ?_⟩
  unfold Place.scope at h
  dsimp only at h
  split at h
  case h_1 => cases h
  case h_2 name rest _ =>
    obtain ⟨u, hu, hrest⟩ := Option.bind_eq_some_iff.1 h
    exact hw.follow? (hname name u hu) hrest

/-! ## §5 Growing worlds -/

/-- Classes are only added. -/
def World.Keeps (w w' : World) : Prop := w.classes <+: w'.classes

instance : Std.Refl World.Keeps := ⟨fun w => List.prefix_refl w.classes⟩

instance : Trans World.Keeps World.Keeps World.Keeps := ⟨List.IsPrefix.trans⟩

theorem World.Keeps.length_le (h : w.Keeps w') : w.classes.length ≤ w'.classes.length :=
  List.IsPrefix.length_le h

/-- What running something in a world comes to: classes are only added, the world is closed
    afterwards, and a result has the property. -/
abbrev Grows {α : Type} (code : Codebase) (m : Exec α) (w : World) (P : World → α → Prop) : Prop :=
  Advances World.Keeps (World.Closed code) m w P

theorem grows_need {α : Type} (hw : w.Closed code) {kind : String} {o : Option α}
    {P : World → α → Prop} (ho : ∀ a, o = some a → P w a) : Grows code (need kind o) w P := by
  cases o with
  | none => exact advances_throw hw _
  | some a => exact advances_pure hw (ho a rfl)

theorem grows_need_bind {α β : Type} (hw : w.Closed code) {kind : String} {o : Option α}
    {k : α → Exec β} {Q : World → β → Prop} (hk : ∀ a, o = some a → Grows code (k a) w Q) :
    Grows code (need kind o >>= k) w Q := by
  cases o with
  | none => exact ⟨Std.Refl.refl w, hw, nofun⟩
  | some a =>
    have hgo := hk a rfl
    exact ⟨hgo.keeps, hgo.sound, hgo.result⟩

theorem grows_modify {f : World → World} (hclasses : (f w).classes = w.classes)
    (hclosed : (f w).Closed code) : Grows code (modify f) w fun _ _ => True :=
  advances_modify (hclasses ▸ List.prefix_refl w.classes : w.classes <+: (f w).classes) hclosed

/-! ## §6 Classes -/

theorem grows_valueOf (hw : w.Closed code) (hplace : place.Within w.classes.length)
    (path : Dotted) :
    Grows code (valueOf place path) w fun w v => v.Within w.classes.length :=
  advances_get_bind (grows_need hw fun _ => (hw.scope hplace).lookup path _)

theorem grows_baseOf (hw : w.Closed code) (hplace : place.Within w.classes.length)
    (decl : BaseDecl) :
    Grows code (baseOf place decl) w fun w c => c < w.classes.length := by
  have hbuiltin : ∀ c, c < builtinClasses.length → c < w.classes.length :=
    fun c hc => Nat.lt_of_lt_of_le hc hw.builtins
  cases decl with
  | interface => exact advances_pure hw (hbuiltin _ (by decide))
  | abstract => exact advances_pure hw (hbuiltin _ (by decide))
  | generic => exact advances_pure hw (hbuiltin _ (by decide))
  | named path =>
    refine (grows_valueOf hw hplace path).bind fun v w' hw' _ hv => ?_
    cases v with
    | cls c => exact advances_pure hw' hv
    | _ => exact advances_throw hw' _

theorem grows_basesOf (hw : w.Closed code) (hplace : place.Within w.classes.length)
    (decls : List BaseDecl) :
    Grows code (basesOf place decls) w fun w bs => ∀ b ∈ bs, b < w.classes.length := by
  have hbases : Grows code (decls.mapM (baseOf place)) w
      fun w bs => ∀ b ∈ bs, b < w.classes.length :=
    advances_mapM (fun _ _ _ hkeeps hb => Nat.lt_of_lt_of_le hb (World.Keeps.length_le hkeeps))
      (fun d _ w' hw' hkeeps => grows_baseOf hw' (hplace.mono (World.Keeps.length_le hkeeps)) d) hw
  refine hbases.bind fun bs w' hw' _ hbs => advances_pure hw' ?_
  -- bases are only left out, and the one that is filled in is built in
  have hobject : objectId < w'.classes.length := Nat.lt_of_lt_of_le (by decide) hw'.builtins
  have hkept : ∀ b ∈ if bs.contains interfaceId then bs.filter (· != genericId) else bs,
      b < w'.classes.length := by
    intro b hb
    split at hb
    · exact hbs b (List.mem_filter.1 hb).1
    · exact hbs b hb
  have hfilled : ∀ kept : List ClassId, (∀ b ∈ kept, b < w'.classes.length) →
      ∀ b ∈ if kept.isEmpty then [objectId] else kept, b < w'.classes.length := by
    intro kept hall b hb
    split at hb
    · cases List.mem_singleton.1 hb
      exact hobject
    · exact hall b hb
  exact hfilled _ hkept

theorem heldValue_within {name : String} (h : v.Within n) : (heldValue name v).Within n := by
  cases v with
  | function f =>
    unfold heldValue
    dsimp only
    split
    · exact h
    · split <;> exact h
  | _ => exact h

/-- The names of a class are those that its body has bound and standard ones, which are bound to no
    classes. -/
theorem bindsWithin_classNames (hframe : frame.Within n) :
    BindsWithin n (frame.names.map (fun e => (e.1, heldValue e.1 e.2)) ++
      standardNames.filter fun e => !frame.names.has e.1) := by
  intro e he
  rcases List.mem_append.1 he with he | he
  · obtain ⟨bound, hbound, rfl⟩ := List.mem_map.1 he
    exact heldValue_within (hframe.names bound hbound)
  · have hstandard : ∀ e ∈ standardNames, e.2.Within n := by
      simp [standardNames, Value.Within]
    exact hstandard e (List.mem_filter.1 he).1

/-- A class is made out of what its body has bound and of values that are no classes. -/
theorem grows_makeClass (hw : w.Closed code) (place : Place)
    (hframe : frame.Within w.classes.length) {bases : List ClassId}
    (hbases : ∀ b ∈ bases, b < w.classes.length) (decls : List BaseDecl) (isFinal : Bool) :
    Grows code (makeClass place frame bases decls isFinal) w
      fun w c => c < w.classes.length := by
  refine advances_get_bind (grows_need_bind hw fun order _ => ?_)
  have hset : ∀ i : ClassInfo, i.Within code w.classes.length →
      Grows code (do set { w with classes := w.classes ++ [i] }; return w.classes.length) w
        fun w c => c < w.classes.length :=
    fun i hi => {
      keeps := List.prefix_append _ _
      sound := hw.addClass hi
      result := by
        intro c hc
        cases hc
        exact (by simp : w.classes.length < (w.classes ++ [i]).length) }
  exact hset _ {
    module := (hw.space place.space).module
    names := bindsWithin_classNames hframe
    notes := hframe.notes
    bases := hbases }

/-! ## §7 Statements -/

/-- What is asked of the imports that a statement makes. -/
def Importer.Grows (code : Codebase) (importer : Importer) : Prop :=
  ∀ module w, w.Closed code → Codebase.Grows code (importer.load module) w fun _ _ => True

variable {importer : Importer}

theorem Importer.Grows.loadInner (himporter : importer.Grows code) (hw : w.Closed code)
    (module : Dotted)
    (name : String) : Codebase.Grows code (importer.loadInner module name) w fun _ _ => True := by
  have hload := himporter (module ++ [name]) w hw
  have hrun : ((importer.loadInner module name).run w).2 =
      ((importer.load (module ++ [name])).run w).2 := by
    unfold Importer.loadInner
    rw [ExceptT.run_mk]
    split <;> simp_all
  constructor
  · rw [hrun]
    exact hload.keeps
  · rw [hrun]
    exact hload.sound
  · exact fun _ _ => trivial

theorem grows_imported (hw : w.Closed code) (module : Dotted) (space : SpaceId) (name : String) :
    Grows code (Importer.imported module space name) w fun w v => v.Within w.classes.length := by
  refine advances_get_bind ?_
  split
  case h_1 v hv => exact advances_pure hw ((hw.space space).names.get? hv)
  case h_2 =>
    split
    · exact advances_pure hw trivial
    · exact advances_throw hw _

theorem Importer.Grows.names (himporter : importer.Grows code) (hw : w.Closed code)
    (module : Dotted)
    (names : List String) : Codebase.Grows code (importer.names module names) w fun w vs =>
      ∀ e ∈ vs, e.2.Within w.classes.length := by
  refine (himporter module w hw).bind fun space w₁ hw₁ _ _ => ?_
  have hbound : ∀ w₂, w₂.Closed code → Codebase.Grows code
      (names.mapM fun name => return (name, ← Importer.imported module space name)) w₂
      fun w vs => ∀ e ∈ vs, e.2.Within w.classes.length := by
    intro w₂ hw₂
    refine advances_mapM (fun _ _ _ hkeeps hv => hv.mono (World.Keeps.length_le hkeeps)) ?_ hw₂
    intro name _ w₃ hw₃ _
    exact (grows_imported hw₃ module space name).bind fun v w₄ hw₄ _ hv => advances_pure hw₄ hv
  have hinner : ∀ w₂, w₂.Closed code → Codebase.Grows code
      (names.forM fun name => do
        unless ((← get).space space).names.has name do importer.loadInner module name) w₂
      fun _ _ => True := by
    intro w₂ hw₂
    refine advances_forM (fun name w₃ hw₃ => advances_get_bind ?_) hw₂
    split
    · exact advances_pure hw₃ trivial
    · exact himporter.loadInner hw₃ module name
  split
  · exact (hinner w₁ hw₁).bind fun _ w₂ hw₂ _ _ => hbound w₂ hw₂
  · exact hbound w₁ hw₁

theorem Importer.Grows.first (himporter : importer.Grows code) (hw : w.Closed code)
    (module : Dotted) :
    Codebase.Grows code (importer.first module) w fun _ _ => True := by
  refine (himporter module w hw).bind fun _ w₁ hw₁ _ _ => ?_
  exact (himporter _ w₁ hw₁).bind fun _ w₂ hw₂ _ _ => advances_pure hw₂ trivial

theorem Frame.apply_within (h : frame.Within n) {e : Effect} (he : e.Within n) :
    (frame.apply e).Within n := by
  cases e with
  | bind name v => exact ⟨h.names.put he, h.notes⟩
  | unbind name => exact ⟨h.names.erase, h.notes⟩
  | annotate name note => exact ⟨h.names, h.notes.put he⟩

theorem Frame.foldl_apply_within {es : List Effect} (h : frame.Within n)
    (hes : ∀ e ∈ es, e.Within n) : (es.foldl Frame.apply frame).Within n := by
  induction es generalizing frame with
  | nil => exact h
  | cons e es ih =>
    have he := List.forall_mem_cons.1 hes
    exact ih (frame.apply_within h he.1) he.2

theorem noteOf?_within (hw : w.Closed code) (hplace : place.Within w.classes.length)
    {a : Option Hint} {note : Option Note} (h : noteOf? place w a = some note) :
    ∀ k ∈ note, k.Within w.classes.length := by
  cases a with
  | none =>
    cases h
    exact nofun
  | some a =>
    obtain ⟨k, hk, rfl⟩ := Option.map_eq_some_iff.1 h
    rintro _ ⟨⟩
    exact Hint.within_note? (hw.scope hplace) hk

/-- Each result of a list comes from one of its members. -/
theorem exists_of_mem_mapM? {α β : Type} {f : α → Option β} {as : List α} {bs : List β}
    (h : as.mapM f = some bs) {b : β} (hb : b ∈ bs) : ∃ a ∈ as, f a = some b := by
  induction as generalizing bs with
  | nil =>
    cases h
    cases hb
  | cons a as ih =>
    rw [List.mapM_cons] at h
    obtain ⟨first, hfirst, h⟩ := Option.bind_eq_some_iff.1 h
    obtain ⟨rest, hrest, h⟩ := Option.bind_eq_some_iff.1 h
    cases h
    rcases List.mem_cons.1 hb with rfl | hb
    · exact ⟨a, .head _, hfirst⟩
    · obtain ⟨c, hc, hfc⟩ := ih hrest hb
      exact ⟨c, .tail _ hc, hfc⟩

theorem paramsOf?_within (hw : w.Closed code) (hplace : place.Within w.classes.length)
    {decls : List ParamDecl} {ps : List Param} (h : paramsOf? place w decls = some ps) :
    ∀ p ∈ ps, ∀ k ∈ p.note, k.Within w.classes.length := by
  intro p hp
  obtain ⟨⟨name, d⟩, -, hd⟩ := exists_of_mem_mapM? h hp
  obtain ⟨note, hnote, rfl⟩ := Option.map_eq_some_iff.1 hd
  exact noteOf?_within hw hplace hnote

theorem functionOf?_within (hw : w.Closed code) (hplace : place.Within w.classes.length)
    {decl : FunctionDecl} {f : Function} (h : functionOf? place w decl = some f) :
    f.Within w.classes.length := by
  obtain ⟨ps, hps, h⟩ := Option.bind_eq_some_iff.1 h
  obtain ⟨returns, hreturns, h⟩ := Option.bind_eq_some_iff.1 h
  cases h
  exact ⟨paramsOf?_within hw hplace hps, noteOf?_within hw hplace hreturns⟩

theorem lambdaOf_within (place : Place) (params : List String) :
    (lambdaOf place params).Within n where
  params := by
    intro p hp
    obtain ⟨name, -, rfl⟩ := List.mem_map.1 hp
    exact nofun
  returns := nofun

theorem memberValue_within (decl : FunctionDecl) {f : Function} (hf : f.Within n) :
    (memberValue decl f).Within n := by
  unfold memberValue
  split
  · exact hf
  · split <;> exact hf

theorem grows_evaluate (hw : w.Closed code) (hplace : place.Within w.classes.length)
    (value : Expression) :
    Grows code (evaluate place value) w fun w v => v.Within w.classes.length := by
  cases value with
  | nothing => exact advances_pure hw trivial
  | literal => exact advances_pure hw trivial
  | name path => exact grows_valueOf hw hplace path

theorem grows_effect (hw : w.Closed code) {e : Effect} (he : e.Within w.classes.length) :
    Grows code (pure [e]) w fun w es => ∀ e ∈ es, e.Within w.classes.length :=
  advances_pure hw fun _ hmem => List.mem_singleton.1 hmem ▸ he

mutual

/-- A statement binds and annotates nothing but with classes of the world that it leaves. -/
theorem grows_runItem (himporter : importer.Grows code) (item : Item) {place : Place} {w : World}
    (hw : w.Closed code) (hplace : place.Within w.classes.length) :
    Grows code (runItem importer place item) w fun w es =>
      ∀ e ∈ es, e.Within w.classes.length := by
  cases item with
  | cls within name bases body isFinal =>
    unfold runItem
    refine (grows_basesOf hw hplace bases).bind fun bs w₁ hw₁ _ hbs => ?_
    refine (grows_runBody himporter body hw₁ ⟨bindsWithin_nil, notesWithin_nil⟩).bind
      fun fr w₂ hw₂ hkeeps₂ hfr => ?_
    have hbs₂ := fun b hb => Nat.lt_of_lt_of_le (hbs b hb) hkeeps₂.length_le
    refine (grows_makeClass hw₂ place hfr hbs₂ bases isFinal).bind fun c w₃ hw₃ _ hc => ?_
    refine advances_pure hw₃ fun e he => ?_
    rcases List.mem_append.1 he with he | he
    · -- the function around the class is bound to an object
      cases within with
      | none => cases he
      | some function =>
        cases List.mem_singleton.1 he
        trivial
    · exact List.mem_singleton.1 he ▸ hc
  | field name hint =>
    rw [runItem]
    refine advances_get_bind (grows_need_bind hw fun note hnote => grows_effect hw ?_)
    exact Hint.within_note? (hw.scope hplace) hnote
  | function decl =>
    rw [runItem]
    refine advances_get_bind (grows_need_bind hw fun f hf => grows_effect hw ?_)
    have hwithin := functionOf?_within hw hplace hf
    unfold Effect.Within
    dsimp only
    split
    · exact memberValue_within decl hwithin
    · exact hwithin
  | lambda name params =>
    rw [runItem]
    exact grows_effect hw (lambdaOf_within place params)
  | assign name value =>
    rw [runItem]
    exact (grows_evaluate hw hplace value).bind fun v w₁ hw₁ _ hv => grows_effect hw₁ hv
  | delete name =>
    unfold runItem
    refine advances_get_bind ?_
    split
    · exact grows_effect hw trivial
    · exact (advances_throw (P := fun _ _ => False) hw _).bind fun _ _ _ _ hf => hf.elim
  | importModule module =>
    rw [runItem]
    exact (himporter.first hw module).bind fun r w₁ hw₁ _ _ => grows_effect hw₁ trivial
  | importNames module names =>
    rw [runItem]
    refine (himporter.names hw module names).bind fun vs w₁ hw₁ _ hvs => advances_pure hw₁ ?_
    intro e he
    obtain ⟨bound, hbound, rfl⟩ := List.mem_map.1 he
    exact hvs bound hbound

theorem grows_runBody (himporter : importer.Grows code) (items : List Item) {place : Place}
    {frame : Frame} {w : World} (hw : w.Closed code) (hframe : frame.Within w.classes.length) :
    Grows code (runBody importer place frame items) w fun w fr => fr.Within w.classes.length := by
  cases items with
  | nil =>
    rw [runBody]
    exact advances_pure hw hframe
  | cons item rest =>
    rw [runBody]
    have hplace : { place with frame := some frame }.Within w.classes.length := by
      rintro fr ⟨⟩
      exact hframe
    refine (grows_runItem himporter item hw hplace).bind fun es w₁ hw₁ hkeeps hes => ?_
    have hframe₁ := hframe.mono hkeeps.length_le
    exact grows_runBody himporter rest hw₁ (frame.foldl_apply_within hframe₁ hes)

end

/-! ## §8 Modules -/

theorem World.classes_foldl_apply (s : SpaceId) (es : List Effect) :
    (es.foldl (fun w e => w.apply s e) w).classes = w.classes := by
  induction es generalizing w with
  | nil => rfl
  | cons e es ih => rw [List.foldl_cons, ih, w.classes_apply]

theorem World.Closed.foldl_apply (hw : w.Closed code) (s : SpaceId) {es : List Effect}
    (hes : ∀ e ∈ es, e.Within w.classes.length) :
    World.Closed code (es.foldl (fun w e => w.apply s e) w) := by
  induction es generalizing w with
  | nil => exact hw
  | cons e es ih =>
    obtain ⟨he, hrest⟩ := List.forall_mem_cons.1 hes
    rw [← w.classes_apply s e] at hrest
    exact ih (hw.apply s he) hrest

theorem grows_runModule (himporter : importer.Grows code) (hplace : place.frame = none)
    (items : List Item) (hw : w.Closed code) :
    Grows code (runModule importer place items) w fun _ _ => True := by
  induction items generalizing w with
  | nil => exact advances_pure hw trivial
  | cons item rest ih =>
    rw [runModule]
    have hwithin : place.Within w.classes.length := fun frame hframe =>
      nomatch hplace.symm.trans hframe
    refine (grows_runItem himporter item hw hwithin).bind fun es w₁ hw₁ _ hes => ?_
    refine (grows_modify (World.classes_foldl_apply _ es) (hw₁.foldl_apply _ hes)).bind ?_
    exact fun _ w₂ hw₂ _ _ => ih hw₂

theorem grows_runCode (himporter : importer.Grows code) (m : Module) (space : SpaceId)
    (hw : w.Closed code) : Grows code (runCode importer m space) w fun _ _ => True := by
  refine (grows_runModule himporter rfl m.items hw).bind fun _ w₁ hw₁ _ _ => ?_
  split
  · exact advances_throw hw₁ _
  · exact advances_pure hw₁ trivial

/-- A module begins with a namespace that binds nothing. -/
theorem World.Closed.addSpace (hw : w.Closed code) {m : Module} (hm : m ∈ code.modules) :
    World.Closed code { w with
      spaces := w.spaces ++ [{ module := m.name.text }]
      loaded := w.loaded.put m.name.text w.spaces.length } where
  builtins := hw.builtins
  classes := hw.classes
  spaces := by
    intro s hs
    rcases List.mem_append.1 hs with hs | hs
    · exact hw.spaces s hs
    · cases List.mem_singleton.1 hs
      exact ⟨.inr ⟨m, hm, rfl⟩, bindsWithin_nil⟩

/-- A module whose code fails leaves the classes that it has made. -/
theorem grows_makeModule (himporter : importer.Grows code) {m : Module} (hm : m ∈ code.modules)
    (hw : w.Closed code) : Grows code (makeModule importer m) w fun _ _ => True := by
  have hstart := hw.addSpace hm
  obtain ⟨hkeeps, hclosed, -⟩ := grows_runCode himporter m w.spaces.length hstart
  unfold makeModule
  constructor
  · rw [ExceptT.run_mk]
    dsimp only
    split
    case h_1 w' hrun =>
      rw [hrun] at hkeeps
      exact hkeeps
    case h_2 failure w' hrun =>
      rw [hrun] at hkeeps
      exact hkeeps
  · rw [ExceptT.run_mk]
    dsimp only
    split
    case h_1 w' hrun =>
      rw [hrun] at hclosed
      exact hclosed
    case h_2 failure w' hrun =>
      -- the module is no longer loaded, but its namespace stays
      rw [hrun] at hclosed
      exact ⟨hclosed.builtins, hclosed.classes, hclosed.spaces⟩
  · exact fun _ _ => trivial

theorem grows_bindInPackage (package : Dotted) (name : String) (space : SpaceId)
    (hw : w.Closed code) : Grows code (bindInPackage package name space) w fun _ _ => True := by
  refine grows_modify ?_ ?_
  · split
    · exact w.classes_apply _ _
    · rfl
  · split
    · exact hw.apply _ trivial
    · exact hw

theorem grows_makeInner (himporter : importer.Grows code) (package : Dotted) (name : String)
    (hw : w.Closed code) : Grows code (makeInner code importer package name) w fun _ _ => True := by
  unfold makeInner
  dsimp only
  by_cases hpackage : (!package.isEmpty && !code.isPackage package) = true
  · rw [if_pos hpackage]
    exact (advances_throw (P := fun _ _ => False) hw _).bind fun _ _ _ _ hf => hf.elim
  · rw [if_neg hpackage]
    split
    case h_1 => exact advances_throw hw _
    case h_2 m hm =>
      have hmem : m ∈ code.modules := List.mem_of_find?_eq_some hm
      refine (grows_makeModule himporter hmem hw).bind fun space w₁ hw₁ _ _ => ?_
      refine (grows_bindInPackage package name space hw₁).bind fun _ w₂ hw₂ _ _ => ?_
      exact advances_pure hw₂ trivial

/-- What may be left out first makes no difference to what grows afterwards. -/
theorem grows_unless {α β : Type} {p : Prop} [Decidable p] {q : Exec α} {k : Exec β}
    (hw : w.Closed code) (hq : Grows code q w fun _ _ => True)
    (hk : ∀ w₁, w₁.Closed code → Grows code k w₁ fun _ _ => True) :
    Grows code (if p then k else do let _ ← q; k) w fun _ _ => True := by
  split
  · exact hk w hw
  · exact hq.bind fun _ w₁ hw₁ _ _ => hk w₁ hw₁

theorem grows_ensure (himporter : importer.Grows code) (names : List String) (hw : w.Closed code) :
    Grows code (ensure code importer names) w fun _ _ => True := by
  induction names generalizing w with
  | nil => exact advances_throw hw _
  | cons name outer ih =>
    rw [ensure]
    refine advances_get_bind ?_
    split
    · exact advances_pure hw trivial
    · dsimp only
      refine grows_unless hw (ih hw) fun w₁ hw₁ => ?_
      refine advances_get_bind ?_
      split
      · exact advances_pure hw₁ trivial
      · exact grows_makeInner himporter _ _ hw₁

theorem grows_importWithin (fuel : Nat) (module : Dotted) (hw : w.Closed code) :
    Grows code (importWithin code fuel module) w fun _ _ => True := by
  induction fuel generalizing module w with
  | zero => exact advances_throw hw _
  | succ fuel ih =>
    rw [importWithin]
    exact grows_ensure (fun module _ hw => ih module hw) _ hw

/-- Importing only adds classes, and no class gets to know anything but classes of its world. -/
theorem grows_importModule (code : Codebase) (name : String) (hw : w.Closed code) :
    Grows code (importModule code name) w fun _ _ => True := by
  unfold importModule
  split
  · exact advances_throw hw _
  · split
    · exact advances_throw hw _
    · exact grows_importWithin _ _ hw

end Codebase

end TypeAtlas
