import TypeAtlas.Proofs.Session.Gain

/-!
# What running something keeps, results in and fails by

`Serves` says of something that runs in a state which property of states it keeps, what its results
are like and in which ways it fails. The rules in §1 compose it along a computation, those in §2
along a question within a session.
-/

namespace TypeAtlas

/-! ## §1 Running -/

/-- From every state with the property, running something leads to one with it, even if it fails.
    Its results have the second property, and its failures the third. -/
structure Serves {ε σ α : Type} (I : σ → Prop) (P : α → Prop) (E : ε → Prop)
    (q : ExceptT ε (StateM σ) α) : Prop where
  keeps : ∀ s, I s → I (q.run s).2
  result : ∀ s a, I s → (q.run s).1 = .ok a → P a
  failure : ∀ s f, I s → (q.run s).1 = .error f → E f

section Rules

variable {ε σ α β γ : Type} {I : σ → Prop} {P : α → Prop} {Q : β → Prop} {E : ε → Prop}
  {q : ExceptT ε (StateM σ) α} {k : α → ExceptT ε (StateM σ) β}

theorem Serves.of_run (h : ∀ s, I s → (∃ a s', q.run s = (.ok a, s') ∧ I s' ∧ P a) ∨
    ∃ f s', q.run s = (.error f, s') ∧ I s' ∧ E f) : Serves I P E q := by
  constructor
  · intro s hs
    rcases h s hs with ⟨a, s', hrun, hs', -⟩ | ⟨f, s', hrun, hs', -⟩ <;> rwa [hrun]
  · intro s a hs ha
    rcases h s hs with ⟨b, s', hrun, -, hb⟩ | ⟨f, s', hrun, -⟩ <;> rw [hrun] at ha <;> cases ha
    exact hb
  · intro s f hs hf
    rcases h s hs with ⟨b, s', hrun, -⟩ | ⟨g, s', hrun, -, hg⟩ <;> rw [hrun] at hf <;> cases hf
    exact hg

theorem serves_pure {a : α} (ha : P a) : Serves I P E (pure a) where
  keeps _ hs := hs
  result _ b _ hb := by
    cases hb
    exact ha
  failure _ _ _ hf := nomatch hf

theorem serves_throw {f : ε} (hf : E f) : Serves I P E (throw f) where
  keeps _ hs := hs
  result _ _ _ hb := nomatch hb
  failure _ g _ hg := by
    cases hg
    exact hf

theorem serves_modify {f : σ → σ} (hf : ∀ s, I s → I (f s)) :
    Serves I (fun _ => True) E (modify f : ExceptT ε (StateM σ) PUnit) where
  keeps := hf
  result _ _ _ _ := trivial
  failure _ _ _ hg := nomatch hg

theorem serves_get_bind {k : σ → ExceptT ε (StateM σ) β}
    (hk : ∀ s, I s → Serves I Q E (k s)) : Serves I Q E (get >>= k) where
  keeps s hs := (hk s hs).keeps s hs
  result s b hs := (hk s hs).result s b hs
  failure s f hs := (hk s hs).failure s f hs

theorem Serves.imp {P' : α → Prop} (h : Serves I P E q) (hP : ∀ a, P a → P' a) :
    Serves I P' E q := ⟨h.keeps, fun s a hs ha => hP a (h.result s a hs ha), h.failure⟩

theorem Serves.bind (hq : Serves I P E q) (hk : ∀ a, P a → Serves I Q E (k a)) :
    Serves I Q E (q >>= k) := by
  have hrun : ∀ s, I s → (∃ f s', (q >>= k).run s = (.error f, s') ∧ I s' ∧ E f) ∨
      ∃ a s', (q >>= k).run s = (k a).run s' ∧ I s' ∧ P a := by
    intro s hs
    have hs' := hq.keeps s hs
    have hbind : (q >>= k).run s = ExceptT.bindCont (m := StateM σ) k (q.run s).1 (q.run s).2 := rfl
    rcases hrun : q.run s with ⟨f | a, s'⟩ <;> rw [hrun] at hs' hbind
    · exact .inl ⟨f, s', hbind, hs', hq.failure s f hs (by rw [hrun])⟩
    · exact .inr ⟨a, s', hbind, hs', hq.result s a hs (by rw [hrun])⟩
  constructor
  · intro s hs
    rcases hrun s hs with ⟨f, s', h, hs', -⟩ | ⟨a, s', h, hs', ha⟩ <;> rw [h]
    · exact hs'
    · exact (hk a ha).keeps s' hs'
  · intro s b hs hb
    rcases hrun s hs with ⟨f, s', h, -, -⟩ | ⟨a, s', h, hs', ha⟩ <;> rw [h] at hb
    · cases hb
    · exact (hk a ha).result s' b hs' hb
  · intro s g hs hg
    rcases hrun s hs with ⟨f, s', h, -, hf⟩ | ⟨a, s', h, hs', ha⟩ <;> rw [h] at hg
    · cases hg
      exact hf
    · exact (hk a ha).failure s' g hs' hg

theorem serves_foldlM {J : List γ → β → Prop} {f : β → γ → ExceptT ε (StateM σ) β}
    {cs : List γ} {b : β} (hf : ∀ b c rest, J (c :: rest) b → Serves I (J rest) E (f b c))
    (hb : J cs b) : Serves I (J []) E (cs.foldlM f b) := by
  induction cs generalizing b with
  | nil => exact serves_pure hb
  | cons c cs ih =>
    rw [List.foldlM_cons]
    exact (hf b c cs hb).bind fun b' hb' => ih hb'

end Rules

/-! ## §2 Questions -/

/-- What holds of an answer in another form holds of the answer. -/
theorem Serves.of_map {σ α β : Type} {I : σ → Prop} {Q : β → Prop} {E : Failure → Prop}
    {q : Asking σ α} {form : α → β} (h : Serves I Q E (q >>= fun a => pure (form a))) :
    Serves I (fun a => Q (form a)) E q := by
  have hrun : ∀ s, (q >>= fun a => pure (form a)).run s = ((q.run s).1.map form, (q.run s).2) :=
    Asking.run_map q form
  constructor
  · intro s hs
    have hs' := h.keeps s hs
    rwa [hrun] at hs'
  · intro s a hs ha
    exact h.result s (form a) hs (by rw [hrun, ha]; rfl)
  · intro s f hs hf
    exact h.failure s f hs (by rw [hrun, hf]; rfl)

namespace Run

variable {σ α : Type} {I : Session σ → Prop} {M : σ → Prop} {P : α → Prop} {E F : Failure → Prop}

/-- Asking the provider changes a session by what the provider remembers. -/
theorem serves_ask {q : Asking σ α} (hq : Serves M P E q) (hM : ∀ s, I s → M s.memory)
    (hI : ∀ s m, I s → M m → I { s with memory := m }) : Serves I P E (ask q) where
  keeps s hs := hI s _ hs (hq.keeps s.memory (hM s hs))
  result s a hs ha := hq.result s.memory a (hM s hs) ha
  failure s f hs hf := hq.failure s.memory f (hM s hs) hf

/-- A question that fails by unresolved types alone is answered, or its failure is told. -/
theorem serves_orUnresolved {m : Run σ α} (hm : Serves I P E m)
    (hE : ∀ f, E f → ∃ u, f = .unresolved u) :
    Serves I (fun r => (∀ a, r = .ok a → P a) ∧ ∀ u, r = .error u → E (.unresolved u)) F
      (orUnresolved m) := by
  constructor
  · intro s hs
    rw [run_orUnresolved]
    exact hm.keeps s hs
  · intro s r hs hr
    rw [run_orUnresolved] at hr
    cases hrun : (m.run s).1 with
    | ok a =>
      rw [hrun] at hr
      cases hr
      refine ⟨?_, nofun⟩
      rintro _ ⟨⟩
      exact hm.result s a hs hrun
    | error f =>
      have hf := hm.failure s f hs hrun
      obtain ⟨u, rfl⟩ := hE f hf
      rw [hrun] at hr
      cases hr
      refine ⟨nofun, ?_⟩
      rintro _ ⟨⟩
      exact hf
  · intro s f hs hf
    rw [run_orUnresolved] at hf
    cases hrun : (m.run s).1 with
    | ok a =>
      rw [hrun] at hf
      cases hf
    | error g =>
      obtain ⟨u, rfl⟩ := hE g (hm.failure s g hs hrun)
      rw [hrun] at hf
      cases hf

end Run

end TypeAtlas
