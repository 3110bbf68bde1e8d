import Mathlib.Data.List.Basic
import TypeAtlas.Codebase.Evaluation
import TypeAtlas.Proofs.Codebase.Annotations

/-!
# The order of union members

An annotation names the same types whatever the order in which its unions list their members, as
long as it can be evaluated: each form names what its parts name. The order may decide whether it
can be evaluated, since a bar does not take just anything on both sides.

Main statement: `Hint.names_iff_of_reordered`.
-/

namespace TypeAtlas.Codebase

variable {scope : Scope} {nameOf : ClassId → TypeName} {u : TypeName}

/-! ## §1 Parts of forms -/

namespace Term

variable {t a : Term}

theorem names_converted_iff : t.converted.Names nameOf u ↔ t.Names nameOf u := by
  cases t with
  | nothing => exact iff_of_false nofun nofun
  | text a => exact iff_of_false nofun nofun
  | _ => exact Iff.rfl

theorem names_tagged?_iff (h : t.tagged? = some a) : a.Names nameOf u ↔ t.Names nameOf u := by
  have hannotated : ∀ (s : Term) tags, (annotated s tags).Names nameOf u ↔ s.Names nameOf u :=
    fun s tags => ⟨fun h => by cases h; assumption, .annotated⟩
  unfold tagged? at h
  split at h <;> cases h
  · rw [hannotated, hannotated]
  · rw [hannotated, names_converted_iff]

theorem names_argument?_iff (h : t.argument? = some a) : a.Names nameOf u ↔ t.Names nameOf u := by
  unfold argument? at h
  split at h <;> cases h
  exact names_converted_iff

theorem exists_names_arguments?_iff {ts as : List Term} (h : arguments? ts = some as) :
    (∃ a ∈ as, a.Names nameOf u) ↔ ∃ t ∈ ts, t.Names nameOf u := by
  induction ts generalizing as with
  | nil =>
    cases h
    rfl
  | cons t ts ih =>
    rw [arguments?, List.mapM_cons] at h
    obtain ⟨a, ha, h⟩ := Option.bind_eq_some_iff.1 h
    obtain ⟨rest, hrest, h⟩ := Option.bind_eq_some_iff.1 h
    cases h
    simp only [List.exists_mem_cons_iff, names_argument?_iff ha, ih hrest]

/-- A bar names what both its sides name. -/
theorem names_barred?_iff {s : Term} (h : barred? s t = some a) :
    a.Names nameOf u ↔ s.Names nameOf u ∨ t.Names nameOf u := by
  have hpair : (∃ r ∈ [s, t], r.Names nameOf u) ↔ s.Names nameOf u ∨ t.Names nameOf u := by simp
  rw [← hpair]
  -- the bar is one between classes, or it is the union of the two as arguments
  unfold barred? at h
  split at h
  case h_1 => cases h
  case h_2 =>
    split at h
    · rw [names_unionOf_iff h]
      simp only [List.exists_mem_cons_iff, names_converted_iff]
    · split at h
      · obtain ⟨as, has, h⟩ := Option.bind_eq_some_iff.1 h
        rw [names_unionOf_iff h, exists_names_arguments?_iff has]
      · cases h

theorem names_foldlM_barred?_iff {ts : List Term} (h : ts.foldlM barred? t = some a) :
    a.Names nameOf u ↔ t.Names nameOf u ∨ ∃ s ∈ ts, s.Names nameOf u := by
  induction ts generalizing t with
  | nil =>
    cases h
    simp
  | cons s ts ih =>
    rw [List.foldlM_cons] at h
    obtain ⟨next, hnext, hrest⟩ := Option.bind_eq_some_iff.1 h
    rw [ih hrest, names_barred?_iff hnext, List.exists_mem_cons_iff, or_assoc]

theorem names_bars?_iff {ts : List Term} (h : bars? ts = some a) :
    a.Names nameOf u ↔ ∃ t ∈ ts, t.Names nameOf u := by
  cases ts with
  | nil => cases h
  | cons t ts => rw [names_foldlM_barred?_iff h, List.exists_mem_cons_iff]

end Term

/-! ## §2 Evaluation -/

/-- Names stand for the same in both scopes. -/
def Scope.Agrees (scope scope' : Scope) : Prop :=
  ∀ path, (scope.lookup? path).map scope.world.term = (scope'.lookup? path).map scope'.world.term

namespace Hint

variable {a b : Hint} {t t' : Term} {as bs : List Hint} {ts ts' : List Term}

theorem evalAll?_cons (h : evalAll? scope (a :: as) = some ts) :
    ∃ t rest, a.eval? scope = some t ∧ evalAll? scope as = some rest ∧ ts = t :: rest := by
  obtain ⟨t, ht, h⟩ := Option.bind_eq_some_iff.1 h
  obtain ⟨rest, hrest, h⟩ := Option.bind_eq_some_iff.1 h
  cases h
  exact ⟨t, rest, ht, hrest, rfl⟩

/-- Annotations name together what they name one by one. -/
theorem exists_mem_evalAll?_iff {p : Term → Prop} (h : evalAll? scope as = some ts) :
    (∃ t ∈ ts, p t) ↔ ∃ a ∈ as, ∃ t, a.eval? scope = some t ∧ p t := by
  induction as generalizing ts with
  | nil =>
    cases h
    simp
  | cons a as ih =>
    obtain ⟨t, rest, ht, hrest, rfl⟩ := evalAll?_cons h
    rw [List.exists_mem_cons_iff, List.exists_mem_cons_iff, ih hrest]
    refine or_congr_left ⟨fun hp => ⟨t, ht, hp⟩, ?_⟩
    rintro ⟨s, hs, hp⟩
    cases ht.symm.trans hs
    exact hp

theorem exists_eval?_of_mem (h : evalAll? scope as = some ts) (ha : a ∈ as) :
    ∃ t, a.eval? scope = some t := by
  induction as generalizing ts with
  | nil => cases ha
  | cons b as ih =>
    obtain ⟨t, rest, ht, hrest, rfl⟩ := evalAll?_cons h
    rcases List.mem_cons.1 ha with rfl | ha
    · exact ⟨t, ht⟩
    · exact ih hrest ha

theorem names_eval?_optional (h : (optional a).eval? scope = some t) :
    ∃ s, a.eval? scope = some s ∧ (t.Names nameOf u ↔ s.Names nameOf u) := by
  obtain ⟨s, hs, h⟩ := Option.bind_eq_some_iff.1 h
  obtain ⟨args, hargs, h⟩ := Option.bind_eq_some_iff.1 h
  refine ⟨s, hs, ?_⟩
  have hnothing : ¬ Term.Names nameOf .nothing u := nofun
  rw [Term.names_unionOf_iff h, Term.exists_names_arguments?_iff hargs]
  simp [hnothing]

theorem names_eval?_union {ms : List Hint} (h : (union ms).eval? scope = some t) :
    ∃ ss, evalAll? scope ms = some ss ∧ (t.Names nameOf u ↔ ∃ s ∈ ss, s.Names nameOf u) := by
  obtain ⟨ss, hss, h⟩ := Option.bind_eq_some_iff.1 h
  obtain ⟨args, hargs, h⟩ := Option.bind_eq_some_iff.1 h
  exact ⟨ss, hss, by rw [Term.names_unionOf_iff h, Term.exists_names_arguments?_iff hargs]⟩

theorem names_eval?_bars {ms : List Hint} (h : (bars ms).eval? scope = some t) :
    ∃ ss, evalAll? scope ms = some ss ∧ (t.Names nameOf u ↔ ∃ s ∈ ss, s.Names nameOf u) := by
  obtain ⟨ss, hss, h⟩ := Option.bind_eq_some_iff.1 h
  exact ⟨ss, hss, Term.names_bars?_iff h⟩

theorem names_eval?_annotated (h : (annotated a).eval? scope = some t) :
    ∃ s, a.eval? scope = some s ∧ (t.Names nameOf u ↔ s.Names nameOf u) := by
  obtain ⟨s, hs, h⟩ := Option.bind_eq_some_iff.1 h
  exact ⟨s, hs, Term.names_tagged?_iff h⟩

theorem names_eval?_classVar (h : (classVar a).eval? scope = some t) :
    ∃ s, a.eval? scope = some s ∧ (t.Names nameOf u ↔ s.Names nameOf u) := by
  obtain ⟨s, hs, h⟩ := Option.bind_eq_some_iff.1 h
  obtain ⟨arg, harg, h⟩ := Option.bind_eq_some_iff.1 h
  cases h
  refine ⟨s, hs, ?_⟩
  rw [← Term.names_argument?_iff harg]
  exact ⟨fun h => by cases h; assumption, .classVar⟩

theorem names_eval?_final (h : (final a).eval? scope = some t) :
    ∃ s, a.eval? scope = some s ∧ (t.Names nameOf u ↔ s.Names nameOf u) := by
  obtain ⟨s, hs, h⟩ := Option.bind_eq_some_iff.1 h
  obtain ⟨arg, harg, h⟩ := Option.bind_eq_some_iff.1 h
  cases h
  refine ⟨s, hs, ?_⟩
  rw [← Term.names_argument?_iff harg]
  exact ⟨fun h => by cases h; assumption, .final⟩

/-- A generic class with arguments is a type of its own. -/
theorem not_names_eval?_generic {head : Dotted} (h : (generic head as).eval? scope = some t) :
    ¬ t.Names nameOf u := by
  obtain ⟨c, -, h⟩ := Option.bind_eq_some_iff.1 h
  obtain ⟨ss, -, h⟩ := Option.bind_eq_some_iff.1 h
  unfold Scope.generic? at h
  split at h <;> cases h <;> exact nofun

/-- An alias has arguments only where some are written. -/
theorem arguments_eq_nil_iff {ss args : List Term} (hss : evalAll? scope as = some ss)
    (hargs : Term.arguments? ss = some args) : args = [] ↔ as = [] := by
  cases as with
  | nil =>
    cases hss
    cases hargs
    exact iff_of_true rfl rfl
  | cons a as =>
    obtain ⟨s, rest, -, -, rfl⟩ := evalAll?_cons hss
    rw [Term.arguments?, List.mapM_cons] at hargs
    obtain ⟨_, -, hargs⟩ := Option.bind_eq_some_iff.1 hargs
    obtain ⟨_, -, hargs⟩ := Option.bind_eq_some_iff.1 hargs
    cases hargs
    exact iff_of_false nofun nofun

/-- Only an alias without arguments is named, by itself. -/
theorem names_eval?_alias {n : String} (h : (Hint.alias n as).eval? scope = some t) :
    t.Names nameOf u ↔ as = [] ∧ u = "typing." ++ n := by
  obtain ⟨ss, hss, h⟩ := Option.bind_eq_some_iff.1 h
  obtain ⟨args, hargs, h⟩ := Option.bind_eq_some_iff.1 h
  cases h
  rw [← arguments_eq_nil_iff hss hargs]
  apply Iff.intro
  · intro h
    cases h
    exact ⟨rfl, rfl⟩
  · intro h
    obtain ⟨rfl, rfl⟩ := h
    exact .bareAlias n

/-! ## §3 Reordering -/

mutual

/-- One annotation is the other with the members of its unions in another order, however deep they
    stand in it. -/
def Reordered : Hint → Hint → Prop
  | .optional a, b => ∃ a', b = .optional a' ∧ Reordered a a'
  | .union ms, b => ∃ ms' ns, b = .union ns ∧ AllReordered ms ms' ∧ ms'.Perm ns
  | .bars ms, b => ∃ ms' ns, b = .bars ns ∧ AllReordered ms ms' ∧ ms'.Perm ns
  | .annotated a, b => ∃ a', b = .annotated a' ∧ Reordered a a'
  | .classVar a, b => ∃ a', b = .classVar a' ∧ Reordered a a'
  | .final a, b => ∃ a', b = .final a' ∧ Reordered a a'
  | .generic head args, b => ∃ args', b = .generic head args' ∧ AllReordered args args'
  | .alias n args, b => ∃ args', b = .alias n args' ∧ AllReordered args args'
  | .quote a, b => ∃ a', b = .quote a' ∧ Reordered a a'
  | a, b => b = a

/-- The annotations of one list are those of the other, each with its members in another order. -/
def AllReordered : List Hint → List Hint → Prop
  | [], bs => bs = []
  | a :: as, bs => ∃ b rest, bs = b :: rest ∧ Reordered a b ∧ AllReordered as rest

end

theorem eq_nil_iff_of_allReordered (h : AllReordered as bs) : as = [] ↔ bs = [] := by
  cases as with
  | nil =>
    rw [AllReordered] at h
    simp [h]
  | cons a as =>
    rw [AllReordered] at h
    obtain ⟨b, rest, rfl, -, -⟩ := h
    simp

variable {scope' : Scope}

/-- What is the same of annotations one by one is the same of them in another order. -/
theorem exists_mem_iff_of_perm {p : Term → Prop} {ms : List Hint}
    (hts : evalAll? scope as = some ts)
    (hts' : evalAll? scope' bs = some ts') (hperm : ms.Perm bs)
    (hpair : (∀ a ∈ as, ∃ t, a.eval? scope = some t) → (∀ a ∈ ms, ∃ t, a.eval? scope' = some t) →
      ((∃ a ∈ as, ∃ t, a.eval? scope = some t ∧ p t) ↔
        ∃ a ∈ ms, ∃ t, a.eval? scope' = some t ∧ p t)) :
    (∃ t ∈ ts, p t) ↔ ∃ t ∈ ts', p t := by
  have hfirst : ∀ a ∈ as, ∃ t, a.eval? scope = some t := fun a ha => exists_eval?_of_mem hts ha
  have hsecond : ∀ a ∈ ms, ∃ t, a.eval? scope' = some t := fun a ha =>
    exists_eval?_of_mem hts' (hperm.mem_iff.1 ha)
  rw [exists_mem_evalAll?_iff hts, exists_mem_evalAll?_iff hts', hpair hfirst hsecond]
  exact exists_congr fun a => by rw [hperm.mem_iff]

mutual

/-- Annotations that differ in the order of union members name the same types, if both can be
    evaluated. -/
theorem names_iff_of_reordered (hscope : scope.Agrees scope') (a : Hint) {b : Hint} {t t' : Term}
    (h : a.Reordered b) (ha : a.eval? scope = some t) (hb : b.eval? scope' = some t') :
    t.Names nameOf u ↔ t'.Names nameOf u := by
  cases a with
  | optional a =>
    rw [Reordered] at h
    obtain ⟨a', rfl, h⟩ := h
    obtain ⟨s, hs, ht⟩ := names_eval?_optional ha
    obtain ⟨s', hs', ht'⟩ := names_eval?_optional hb
    rw [ht, ht']
    exact names_iff_of_reordered hscope a h hs hs'
  | union ms =>
    rw [Reordered] at h
    obtain ⟨ms', ns, rfl, h, hperm⟩ := h
    obtain ⟨ss, hss, ht⟩ := names_eval?_union ha
    obtain ⟨ss', hss', ht'⟩ := names_eval?_union hb
    rw [ht, ht']
    exact exists_mem_iff_of_perm hss hss' hperm (exists_names_iff_of_allReordered hscope ms h)
  | bars ms =>
    rw [Reordered] at h
    obtain ⟨ms', ns, rfl, h, hperm⟩ := h
    obtain ⟨ss, hss, ht⟩ := names_eval?_bars ha
    obtain ⟨ss', hss', ht'⟩ := names_eval?_bars hb
    rw [ht, ht']
    exact exists_mem_iff_of_perm hss hss' hperm (exists_names_iff_of_allReordered hscope ms h)
  | annotated a =>
    rw [Reordered] at h
    obtain ⟨a', rfl, h⟩ := h
    obtain ⟨s, hs, ht⟩ := names_eval?_annotated ha
    obtain ⟨s', hs', ht'⟩ := names_eval?_annotated hb
    rw [ht, ht']
    exact names_iff_of_reordered hscope a h hs hs'
  | classVar a =>
    rw [Reordered] at h
    obtain ⟨a', rfl, h⟩ := h
    obtain ⟨s, hs, ht⟩ := names_eval?_classVar ha
    obtain ⟨s', hs', ht'⟩ := names_eval?_classVar hb
    rw [ht, ht']
    exact names_iff_of_reordered hscope a h hs hs'
  | final a =>
    rw [Reordered] at h
    obtain ⟨a', rfl, h⟩ := h
    obtain ⟨s, hs, ht⟩ := names_eval?_final ha
    obtain ⟨s', hs', ht'⟩ := names_eval?_final hb
    rw [ht, ht']
    exact names_iff_of_reordered hscope a h hs hs'
  | generic head args =>
    rw [Reordered] at h
    obtain ⟨args', rfl, h⟩ := h
    -- the arguments are not named, whatever has become of them
    exact iff_of_false (not_names_eval?_generic ha) (not_names_eval?_generic hb)
  | «alias» n args =>
    rw [Reordered] at h
    obtain ⟨args', rfl, h⟩ := h
    -- all that counts is whether there are arguments
    rw [names_eval?_alias ha, names_eval?_alias hb, eq_nil_iff_of_allReordered h]
  | quote a =>
    rw [Reordered] at h
    obtain ⟨a', rfl, h⟩ := h
    -- a text within an evaluated annotation stays a text, which names nothing
    cases ha
    cases hb
    exact iff_of_false nofun nofun
  | name path =>
    simp only [Reordered] at h
    subst h
    cases ha.symm.trans ((hscope path).trans hb)
    rfl
  | _ =>
    simp only [Reordered] at h
    subst h
    cases ha
    cases hb
    rfl

theorem exists_names_iff_of_allReordered (hscope : scope.Agrees scope') (ms : List Hint)
    {ns : List Hint} (h : AllReordered ms ns) (hms : ∀ a ∈ ms, ∃ t, a.eval? scope = some t)
    (hns : ∀ a ∈ ns, ∃ t, a.eval? scope' = some t) :
    (∃ a ∈ ms, ∃ t, a.eval? scope = some t ∧ t.Names nameOf u) ↔
      ∃ a ∈ ns, ∃ t, a.eval? scope' = some t ∧ t.Names nameOf u := by
  cases ms with
  | nil =>
    rw [AllReordered] at h
    subst h
    simp
  | cons a ms =>
    rw [AllReordered] at h
    obtain ⟨b, rest, rfl, hab, h⟩ := h
    obtain ⟨⟨t, ht⟩, hms⟩ := List.forall_mem_cons.1 hms
    obtain ⟨⟨t', ht'⟩, hrest⟩ := List.forall_mem_cons.1 hns
    have hfirst : t.Names nameOf u ↔ t'.Names nameOf u := names_iff_of_reordered hscope a hab ht ht'
    rw [List.exists_mem_cons_iff, List.exists_mem_cons_iff,
      exists_names_iff_of_allReordered hscope ms h hms hrest]
    simp only [ht, ht', Option.some.injEq, exists_eq_left', hfirst]

end

end Hint

end TypeAtlas.Codebase
