import Mathlib.Data.List.Induction
import TypeAtlas.Proofs.Codebase.Questions

/-!
# Which class a name stands for

A name that a codebase knows stands for one class for good, and everything that is answered about
it describes that class. A class takes its own name when it comes up, unless the name is taken; but
a name is also taken by the class that is found by it, and that may be a class of another name. So
the name of a class describes the class as long as nobody has found another one by it.

Main statement: `describes_what_took_the_name`.
-/

namespace TypeAtlas.Codebase

variable {code : Codebase} {m m₁ : Memory} {q : Question} {qs before : List Question}
  {t u : TypeName} {c d : ClassId}

/-! ## §1 What is answered about a known name -/

/-- Everything that is answered about the name describes the class. -/
structure Memory.Describes (code : Codebase) (m : Memory) (t : TypeName) (c : ClassId) : Prop where
  resolve : ((provider code).resolve t).run m = (.ok (m.world.fullName c), m.register c)
  fields : (((provider code).fields t).run m).1 =
    .ok ((m.world.fieldsOf c).map FieldDescription.field)
  methods : (((provider code).methods t).run m).1 =
    .ok ((m.world.methodsOf c).map CallableDescription.method)
  constructors : (((provider code).constructors t).run m).1 =
    .ok ((m.world.constructorsOf c).map CallableDescription.constructor)
  interfaces : (((provider code).interfaces t).run m).1 =
    .ok ((m.world.interfacesOf c).map m.world.fullName)
  superType : (((provider code).superType t).run m).1 =
    .ok ((m.world.superOf c).map m.world.fullName)
  declaringType : ((provider code).declaringType t).run m =
    match (m.world.info c).declaringName? with
    | none => (.ok none, m)
    | some parent => (resolve? code parent).run m
  enclosingType : ((provider code).enclosingType t).run m =
    match (m.world.info c).declaringName? with
    | none => (.ok none, m)
    | some parent => (resolve? code parent).run m
  nestedTypes : (((provider code).nestedTypes t).run m).1 =
    .ok ((m.world.nestedOf c).map m.world.fullName)
  modifiers : (((provider code).modifiers t).run m).1 =
    .ok (OrdSet.ofList (m.world.modifiersOf c))

theorem Memory.describes_of_known (hc : m.known.get? t = some c) : m.Describes code t c := by
  have hclass := run_classOf_of_known code hc
  have haround : (declaring code t).run m =
      match (m.world.info c).declaringName? with
      | none => (.ok none, m)
      | some parent => (resolve? code parent).run m := by
    split
    case h_1 hnone => exact run_declaring_of_none hclass hnone
    case h_2 parent hparent => exact run_declaring_of_some hclass hparent
  exact {
    resolve := run_resolve_of_ok hclass
    fields := congrArg Prod.fst (run_describing code hclass _ _ _)
    methods := congrArg Prod.fst (run_describing code hclass _ _ _)
    constructors := congrArg Prod.fst (run_describing code hclass _ _ _)
    interfaces := congrArg Prod.fst (run_naming code hclass _)
    superType := by
      have hrun := Asking.run_bind_of_ok (k := fun ns => pure ns.head?) (run_naming code hclass
        fun w c => (w.superOf c).toList)
      refine (congrArg Prod.fst hrun).trans ?_
      cases m.world.superOf c <;> rfl
    declaringType := haround
    enclosingType := haround
    nestedTypes := congrArg Prod.fst (run_naming code hclass _)
    modifiers := congrArg Prod.fst (Asking.run_bind_of_ok
      (k := fun ns => pure (OrdSet.ofList ns)) (run_asking code hclass World.modifiersOf)) }

/-! ## §2 How names are taken -/

/-- A question finds the class by the name: by the one that it asks for, or by that of the class
    around the one that it has found. -/
inductive Question.Finds (code : Codebase) (m : Memory) (q : Question) : TypeName → ClassId → Prop
    where
  /-- By the name that is asked for. -/
  | wanted {c : ClassId} {m₁ : Memory} (h : (classOf code q.wanted).run m = (.ok c, m₁)) :
    Finds code m q q.wanted c
  /-- By the name of the class around the class. -/
  | around {c d : ClassId} {m₁ m₂ : Memory} {parent : TypeName}
    (h : (classOf code q.wanted).run m = (.ok c, m₁)) (hq : q.looksAround = true)
    (hparent : (m₁.world.info c).declaringName? = some parent)
    (hfound : (classOf code parent).run m₁ = (.ok d, m₂)) : Finds code m q parent d

/-- A class took the name while the questions were asked, because it was found by it. -/
def FoundBy (code : Codebase) (qs : List Question) (t : TypeName) (c : ClassId) : Prop :=
  ∃ asked p rest, qs = asked ++ p :: rest ∧ p.Finds code (code.after asked) t c

/-- Looking for a class takes its name if it is found, and no other one. -/
theorem known_of_run_classOf (hm : m.Sound code) {r : Except Failure ClassId}
    (h : (classOf code t).run m = (r, m₁)) (hd : m₁.known.get? u = some d) :
    m.known.get? u = some d ∨ u = t ∧ r = .ok d := by
  cases ht : m.known.get? t with
  | some c =>
    rw [run_classOf_of_known code ht] at h
    cases h
    exact .inl hd
  | none =>
    rw [run_classOf_of_unknown code ht] at h
    obtain ⟨himports, -, -⟩ := imports_findClass code hm t
    rcases hfind : (findClass code t).run m with ⟨f | (_ | c), m₂⟩ <;> rw [hfind] at himports
    · rw [Asking.run_bind_of_error hfind] at h
      cases h
      exact .inl (himports.known ▸ hd)
    · rw [Asking.run_bind_of_ok hfind] at h
      cases h
      exact .inl (himports.known ▸ hd)
    · rw [Asking.run_bind_of_ok hfind] at h
      cases h
      change (m₂.known.insert t c).get? u = some d at hd
      rw [OrdMap.get?_insert] at hd
      split at hd
      case isTrue hut =>
        cases hd
        exact .inr ⟨hut, rfl⟩
      case isFalse => exact .inl (himports.known ▸ hd)

theorem Memory.known_of_register (h : (m.register c).known.get? t = some d) :
    m.known.get? t = some d ∨ m.world.fullName d = t := by
  rcases m.register_cases c with hsame | ⟨-, hnew⟩
  · exact .inl (hsame ▸ h)
  · rw [hnew, OrdMap.get?_insert] at h
    split at h
    case isTrue ht =>
      cases h
      exact .inr ht.symm
    case isFalse => exact .inl h

theorem Memory.known_of_foldl_register {cs : List ClassId}
    (h : (cs.foldl Memory.register m).known.get? t = some d) :
    m.known.get? t = some d ∨ m.world.fullName d = t := by
  induction cs generalizing m with
  | nil => exact .inl h
  | cons c cs ih =>
    rcases ih h with hknown | hname
    · exact known_of_register hknown
    · exact .inr (m.world_register c ▸ hname)

/-- A class that has come up has its name taken, by itself or by another one. -/
theorem Memory.exists_known_register (m : Memory) (c : ClassId) :
    ∃ d, (m.register c).known.get? (m.world.fullName c) = some d := by
  unfold register
  dsimp only
  split
  case isTrue htaken => exact Option.isSome_iff_exists.1 htaken
  case isFalse => exact ⟨c, OrdMap.get?_insert.trans (if_pos rfl)⟩

theorem Memory.exists_known_foldl_register {cs : List ClassId} (hc : c ∈ cs) :
    ∃ d, (cs.foldl Memory.register m).known.get? (m.world.fullName c) = some d := by
  induction cs generalizing m with
  | nil => cases hc
  | cons b cs ih =>
    rcases List.mem_cons.1 hc with rfl | hc
    · obtain ⟨d, hd⟩ := m.exists_known_register c
      exact ⟨d, ((m.register c).keeps_foldl_register cs).known _ _ hd⟩
    · obtain ⟨d, hd⟩ := ih (m := m.register b) hc
      exact ⟨d, m.world_register b ▸ hd⟩

/-! ## §3 One question -/

theorem lt_of_mem_questionClasses {w : World} (hw : w.Closed code) (hc : c < w.classes.length)
    (hd : d ∈ q.classes w c) : d < w.classes.length := by
  cases q with
  | about part t => exact hw.lt_of_mem_classes hc hd
  | _ => exact List.mem_singleton.1 hd ▸ hc

/-- What a question remembers of the class that it has found is kept to its end. -/
theorem keeps_after_of_ok (hm : m.Sound code) (hrun : (classOf code q.wanted).run m = (.ok c, m₁)) :
    m₁.Keeps (m.after code q) ∧ (m.after code q).Sound code := by
  obtain ⟨-, hm₁, hknown⟩ := (recalls_classOf code hm q.wanted).of_run hrun
  have hasked := asked hm q
  generalize m.after code q = m' at hasked ⊢
  cases hasked with
  | lost h => cases h.symm.trans hrun
  | told h hq =>
    cases h.symm.trans hrun
    refine ⟨Memory.keeps_foldl_register _ _, hm₁.foldl_register ?_⟩
    exact fun d => lt_of_mem_questionClasses hm₁.closed (hm₁.known _ _ hknown)
  | alone h hq hnone =>
    cases h.symm.trans hrun
    exact ⟨Std.Refl.refl _, hm₁⟩
  | missed h hq hparent hmissed =>
    cases h.symm.trans hrun
    obtain ⟨hkeeps, hsound, -⟩ := recalls_classOf code hm₁ _
    rw [hmissed] at hkeeps hsound
    exact ⟨hkeeps, hsound⟩
  | around h hq hparent hfound =>
    cases h.symm.trans hrun
    obtain ⟨hkeeps, hsound, hknown'⟩ := (recalls_classOf code hm₁ _).of_run hfound
    refine ⟨Trans.trans hkeeps (Memory.keeps_register _ _), ?_⟩
    exact hsound.register (hsound.known _ _ hknown')

/-- A question forgets nothing. -/
theorem keeps_after (hm : m.Sound code) (q : Question) :
    m.Keeps (m.after code q) ∧ (m.after code q).Sound code := by
  obtain ⟨hkeeps, hsound, -⟩ := recalls_classOf code hm q.wanted
  rcases hrun : (classOf code q.wanted).run m with ⟨f | c, m₁⟩ <;> rw [hrun] at hkeeps hsound
  · obtain ⟨r, hask, -⟩ := run_ask_of_error hrun
    unfold Memory.after
    rw [hask]
    exact ⟨hkeeps, hsound⟩
  · obtain ⟨hkeeps', hsound'⟩ := keeps_after_of_ok hm hrun
    exact ⟨Trans.trans hkeeps hkeeps', hsound'⟩

/-- A name that is known after a question was known before, or the question has found the class by
    it, or it is the name of the class. -/
theorem known_of_after (hm : m.Sound code) (h : (m.after code q).known.get? t = some d) :
    m.known.get? t = some d ∨ q.Finds code m t d ∨ (m.after code q).world.fullName d = t := by
  have hfirst : ∀ {r m₁}, (classOf code q.wanted).run m = (r, m₁) →
      m₁.known.get? t = some d → m.known.get? t = some d ∨ q.Finds code m t d := by
    intro r m₁ hrun hd
    refine (known_of_run_classOf hm hrun hd).imp_right ?_
    rintro ⟨rfl, rfl⟩
    exact .wanted hrun
  have hasked := asked hm q
  generalize m.after code q = m' at h hasked ⊢
  cases hasked with
  | lost hrun => exact (hfirst hrun h).imp_right .inl
  | told hrun hq =>
    rcases Memory.known_of_foldl_register h with hd | hname
    · exact (hfirst hrun hd).imp_right .inl
    · exact .inr (.inr (by rw [Memory.world_foldl_register, hname]))
  | alone hrun hq hnone => exact (hfirst hrun h).imp_right .inl
  | missed hrun hq hparent hmissed =>
    obtain ⟨-, hm₁, -⟩ := (recalls_classOf code hm q.wanted).of_run hrun
    rcases known_of_run_classOf hm₁ hmissed h with hd | ⟨-, hok⟩
    · exact (hfirst hrun hd).imp_right .inl
    · cases hok
  | around hrun hq hparent hfound =>
    obtain ⟨-, hm₁, -⟩ := (recalls_classOf code hm q.wanted).of_run hrun
    rcases Memory.known_of_register h with h | hname
    · rcases known_of_run_classOf hm₁ hfound h with hd | ⟨rfl, hok⟩
      · exact (hfirst hrun hd).imp_right .inl
      · cases hok
        exact .inr (.inl (.around hrun hq hparent hfound))
    · exact .inr (.inr (by rw [Memory.world_register, hname]))

/-- A class that is found by a name is known by it from then on. -/
theorem Question.Finds.known (h : q.Finds code m t d) (hm : m.Sound code) :
    (m.after code q).known.get? t = some d := by
  have hrecalls := recalls_classOf code hm q.wanted
  cases h with
  | wanted hrun =>
    obtain ⟨-, -, hknown⟩ := hrecalls.of_run hrun
    exact (keeps_after_of_ok hm hrun).1.known _ _ hknown
  | around hrun hq hparent hfound =>
    obtain ⟨-, hm₁, -⟩ := hrecalls.of_run hrun
    obtain ⟨-, -, hknown⟩ := (recalls_classOf code hm₁ t).of_run hfound
    have hask := run_ask_around hq
      ((run_declaring_of_some hrun hparent).trans (run_resolve?_of_ok hfound))
    unfold Memory.after
    rw [hask]
    exact (Memory.keeps_register _ _).known _ _ hknown

/-- A class that comes up is in the world afterwards, and its name is known. -/
theorem Question.ComesUp.known (h : q.ComesUp code m c) (hm : m.Sound code) :
    c < (m.after code q).world.classes.length ∧
      ∃ d, (m.after code q).known.get? ((m.after code q).world.fullName c) = some d := by
  have hrecalls := recalls_classOf code hm q.wanted
  cases h with
  | told hrun hc =>
    obtain ⟨-, hm₁, hknown⟩ := hrecalls.of_run hrun
    have hlt := lt_of_mem_questionClasses hm₁.closed (hm₁.known _ _ hknown) hc
    cases hq : q.looksAround with
    | false =>
      obtain ⟨ns, hask, -⟩ := run_ask_of_ok hm hrun hq
      unfold Memory.after
      rw [hask]
      refine ⟨by rwa [Memory.world_foldl_register], ?_⟩
      rw [Memory.world_foldl_register]
      exact Memory.exists_known_foldl_register hc
    | true =>
      -- asked for what is around a class, nothing is told of the class itself
      unfold Question.looksAround at hq
      split at hq
      · cases hc
      · cases hc
      · cases hq
  | around hrun hq hparent hfound =>
    obtain ⟨-, hm₁, -⟩ := hrecalls.of_run hrun
    obtain ⟨-, hm₂, hknown⟩ := (recalls_classOf code hm₁ _).of_run hfound
    have hask := run_ask_around hq
      ((run_declaring_of_some hrun hparent).trans (run_resolve?_of_ok hfound))
    unfold Memory.after
    rw [hask, Memory.world_register]
    exact ⟨hm₂.known _ _ hknown, Memory.exists_known_register _ _⟩

/-! ## §4 Many questions -/

theorem after_append (before later : List Question) :
    code.after (before ++ later) = later.foldl (Memory.after code) (code.after before) :=
  List.foldl_append

theorem after_singleton (before : List Question) (q : Question) :
    code.after (before ++ [q]) = (code.after before).after code q := after_append before [q]

theorem keeps_foldl_after (hm : m.Sound code) (qs : List Question) :
    m.Keeps (qs.foldl (Memory.after code) m) ∧ (qs.foldl (Memory.after code) m).Sound code := by
  induction qs generalizing m with
  | nil => exact ⟨Std.Refl.refl m, hm⟩
  | cons q qs ih =>
    obtain ⟨hkeeps, hsound⟩ := keeps_after hm q
    obtain ⟨hkeeps', hsound'⟩ := ih hsound
    exact ⟨Trans.trans hkeeps hkeeps', hsound'⟩

theorem sound_after (qs : List Question) : (code.after qs).Sound code :=
  (keeps_foldl_after Memory.sound_start qs).2

theorem keeps_after_append (before later : List Question) :
    (code.after before).Keeps (code.after (before ++ later)) :=
  after_append before later ▸ (keeps_foldl_after (sound_after before) later).1

/-- A name that is known after questions was taken by a class that was found by it, or that is
    called so. -/
theorem foundBy_or_fullName (h : (code.after qs).known.get? t = some d) :
    code.FoundBy qs t d ∨ (code.after qs).world.fullName d = t := by
  induction qs using List.reverseRecOn with
  | nil => exact nomatch h
  | append_singleton before q ih =>
    rw [after_singleton] at h ⊢
    have hm := @sound_after code before
    rcases known_of_after hm h with hbefore | hfinds | hname
    · rcases ih hbefore with ⟨asked, p, rest, rfl, hfinds⟩ | hname
      · exact .inl ⟨asked, p, rest ++ [q], by simp, hfinds⟩
      · -- the name of a class does not change
        refine .inr ((keeps_after hm q).1.world.fullName ?_ ▸ hname)
        exact hm.known _ _ hbefore
    · exact .inl ⟨before, q, [], rfl, hfinds⟩
    · exact .inr hname

/-- A class that was found by a name is known by it after the questions. -/
theorem FoundBy.known (h : code.FoundBy qs t c) : (code.after qs).known.get? t = some c := by
  obtain ⟨asked, p, rest, rfl, hfinds⟩ := h
  have hknown := hfinds.known (sound_after asked)
  rw [← after_singleton] at hknown
  rw [List.append_cons]
  exact (keeps_after_append (asked ++ [p]) rest).known _ _ hknown

/-! ## §5 Main statement -/

/-- No two classes of the world have the same name. -/
def World.NamesApart (w : World) : Prop := (w.classes.map ClassInfo.fullName).Nodup

instance (w : World) : Decidable w.NamesApart :=
  inferInstanceAs (Decidable (w.classes.map ClassInfo.fullName).Nodup)

theorem World.NamesApart.eq {w : World} (hw : w.NamesApart) (hc : c < w.classes.length)
    (hd : d < w.classes.length) (h : w.fullName c = w.fullName d) : c = d := by
  have hname : ∀ b, b < w.classes.length →
      (w.classes.map ClassInfo.fullName)[b]? = some (w.fullName b) := by
    intro b hb
    unfold World.fullName World.info
    rw [List.getElem?_map, List.getElem?_eq_getElem hb]
    rfl
  refine (List.getElem?_inj (by simpa using hc) hw).1 ?_
  rw [hname c hc, hname d hd, h]

/-- The name of a class that comes up, in a world in which no two classes have the same name,
    stands for one class for good, and everything that is answered about it describes that class. It
    is the class that has come up if and only if no other one has been found by the name so far, and
    only then the name stands for itself. -/
theorem describes_what_took_the_name (hq : q.ComesUp code (code.after before) c)
    (hapart : (code.after (before ++ [q])).world.NamesApart)
    (ht : (code.after (before ++ [q])).world.fullName c = t) :
    ∃ d, (∀ later, (code.after (before ++ q :: later)).Describes code t d) ∧
      (d = c ↔ ∀ e, code.FoundBy (before ++ [q]) t e → e = c) ∧
      (d = c ↔ ∀ later, ((provider code).resolve t).run (code.after (before ++ q :: later)) =
        (.ok t, code.after (before ++ q :: later))) := by
  have hm := @sound_after code (before ++ [q])
  obtain ⟨hc, d, hd⟩ : c < (code.after (before ++ [q])).world.classes.length ∧
      ∃ d, (code.after (before ++ [q])).known.get? t = some d := by
    rw [← ht, after_singleton]
    exact hq.known (sound_after before)
  have hlt := hm.known t d hd
  have hlater : ∀ later,
      (code.after (before ++ [q])).Keeps (code.after (before ++ q :: later)) := by
    intro later
    have hkeeps := @keeps_after_append code (before ++ [q]) later
    rwa [← List.append_cons] at hkeeps
  have hdescribes : ∀ later, (code.after (before ++ q :: later)).Describes code t d :=
    fun later => Memory.describes_of_known ((hlater later).known t d hd)
  refine ⟨d, hdescribes, ⟨?_, ?_⟩, ⟨?_, ?_⟩⟩
  · rintro rfl e he
    exact Option.some.inj (he.known.symm.trans hd)
  · intro hfound
    rcases foundBy_or_fullName hd with he | hname
    · exact hfound d he
    · exact hapart.eq hlt hc (hname.trans ht.symm)
  · rintro rfl later
    have hname := ((hlater later).world.fullName hlt).trans ht
    refine (hdescribes later).resolve.trans ?_
    -- the name is known already, so nothing is remembered anew
    rw [hname]
    refine congrArg _ ?_
    unfold Memory.register
    rw [hname, if_pos]
    exact Option.isSome_of_eq_some ((hlater later).known t d hd)
  · intro hself
    have hresolve := (hdescribes []).resolve.symm.trans (hself [])
    have hname := Except.ok.inj (congrArg Prod.fst hresolve)
    exact hapart.eq hlt hc (hname.trans ht.symm)

/-- A module in which the name of the first class is bound to the second one in the end, and the
    third class has a field of the first. -/
def reboundCodebase : Codebase where
  modules := [{
    name := ["pm"]
    items :=
      [.cls none "A" [] [.field "x" (.name ["int"])] false,
        .cls none "B" [] [.field "y" (.name ["str"])] false,
        .cls none "C" [] [.field "a" (.name ["A"])] false, .assign "A" (.name ["B"])] }]

/-- The second class is found by the name of the first. When the first one comes up in the field of
    the third, its name goes on describing another class. -/
theorem describes_what_took_the_name_rebound :
    let before : List Question := [.resolve "pm.A"]
    let q : Question := .about .fields "pm.C"
    q.ComesUp reboundCodebase (reboundCodebase.after before) 23 ∧
      (reboundCodebase.after (before ++ [q])).world.NamesApart ∧
      (reboundCodebase.after (before ++ [q])).world.fullName 23 = "pm.A" ∧
      ∃ d, d ≠ 23 ∧ ∀ later,
        (reboundCodebase.after (before ++ q :: later)).Describes reboundCodebase "pm.A" d := by
  intro before q
  have hcomes : q.ComesUp reboundCodebase (reboundCodebase.after before) 23 := by
    have hfield : ((classOf reboundCodebase "pm.C").run (reboundCodebase.after before)).1.toOption =
          some 25 ∧
        23 ∈ Part.classes ((classOf reboundCodebase "pm.C").run
          (reboundCodebase.after before)).2.world 25 .fields := by decide +kernel
    rcases hrun : (classOf reboundCodebase "pm.C").run (reboundCodebase.after before) with
      ⟨f | c, m₁⟩ <;> rw [hrun] at hfield
    · exact nomatch hfield.1
    · cases hfield.1
      exact .told hrun hfield.2
  have hapart : (reboundCodebase.after (before ++ [q])).world.NamesApart := by decide +kernel
  have hname : (reboundCodebase.after (before ++ [q])).world.fullName 23 = "pm.A" := by
    decide +kernel
  have hfound : reboundCodebase.FoundBy (before ++ [q]) "pm.A" 24 := by
    refine ⟨[], .resolve "pm.A", [q], rfl, ?_⟩
    have hresult : ((classOf reboundCodebase "pm.A").run Memory.start).1.toOption = some 24 := by
      decide +kernel
    rcases hrun : (classOf reboundCodebase "pm.A").run Memory.start with ⟨f | c, m₁⟩ <;>
      rw [hrun] at hresult
    · exact nomatch hresult
    · cases hresult
      exact .wanted hrun
  obtain ⟨d, hdescribes, hfirst, -⟩ := describes_what_took_the_name hcomes hapart hname
  refine ⟨hcomes, hapart, hname, d, fun hd => ?_, hdescribes⟩
  exact absurd (hfirst.1 hd 24 hfound) (by decide)

end TypeAtlas.Codebase
