import TypeAtlas.Json.Reading
import TypeAtlas.Proofs.Json.Printing
import Mathlib.Data.List.Forall2
import Mathlib.Data.List.Nodup

/-!
# Reading abridged objects

An object may be written without those of its parts that have their default values. This module
says what the written forms of an object are, by the list of its parts, and that a reader which
takes in the parts one by one reads the same from all of them. Values that a reader takes as they
are come back as they were.

Main statements: `Json.anyObject_toNode`, `Json.object_toNode`.
-/

namespace TypeAtlas

theorem Entries.put_of_notMem {β : Type} {n : String} {b : β} {es : Entries β}
    (h : n ∉ es.map Prod.fst) : Entries.put n b es = es ++ [(n, b)] := by
  induction es with
  | nil => rfl
  | cons e es ih =>
    simp only [List.map_cons, List.mem_cons, not_or] at h
    obtain ⟨hne, hes⟩ := h
    simp [Entries.put, Ne.symm hne, ih hes]

namespace Json

/-! ## §1 Values that are read as they are -/

/-- The values without fractions and exponents in whose objects no key is repeated. -/
inductive Plain : Json → Prop where
  | null : Plain .null
  | bool (b : Bool) : Plain (.bool b)
  | int (n : Int) : Plain (.int n)
  | str (s : String) : Plain (.str s)
  | arr {vs : List Json} : (∀ v ∈ vs, Plain v) → Plain (.arr vs)
  | obj {ms : List (String × Json)} :
      (ms.map Prod.fst).Nodup → (∀ m ∈ ms, Plain m.2) → Plain (.obj ms)

theorem anyItems_toNodes {vs : List Json} (h : ∀ v ∈ vs, ∀ path, anyValue path v.toNode = .ok v)
    (path : Path) (n : Nat) : anyItems path n (toNodes vs) = .ok vs := by
  induction vs generalizing n with
  | nil => rfl
  | cons v vs ih =>
    have hv := h v (by simp) (.index n :: path)
    have hvs := ih (fun w hw => h w (by simp [hw])) (n + 1)
    simp [toNodes, anyItems, hv, hvs, bind, Except.bind, pure, Except.pure]

/-- Members whose keys are new are added in their order. -/
theorem anyMembers_toMembers {ms : List (String × Json)}
    (h : ∀ m ∈ ms, ∀ path, anyValue path m.2.toNode = .ok m.2) (path : Path)
    (before : List (String × Json)) (hkeys : ((before ++ ms).map Prod.fst).Nodup) :
    anyMembers path before (toMembers ms) = .ok (before ++ ms) := by
  induction ms generalizing before with
  | nil => simp [toMembers, anyMembers]
  | cons m ms ih =>
    obtain ⟨k, v⟩ := m
    have hv := h (k, v) (by simp) (.any :: path)
    have hnew : k ∉ before.map Prod.fst := by
      intro hk
      rw [List.map_append] at hkeys
      exact (List.nodup_append.1 hkeys).2.2 k hk k (by simp) rfl
    have hms := ih (fun m hm => h m (by simp [hm])) (before ++ [(k, v)]) (by simpa using hkeys)
    simp only [toMembers, anyMembers, needText, hv, Entries.put_of_notMem hnew, bind, Except.bind,
      hms]
    simp

theorem anyValue_toNode {v : Json} (h : Plain v) (path : Path) :
    anyValue path v.toNode = .ok v := by
  induction h generalizing path with
  | null => simp [toNode, anyValue]
  | bool b => simp [toNode, anyValue]
  | int n => simp [toNode, anyValue]
  | str s => simp [toNode, anyValue, needText, Functor.map, Except.map]
  | arr _ ih => simp [toNode, anyValue, anyItems_toNodes ih, bind, Except.bind]
  | obj hkeys _ ih =>
    simp [toNode, anyValue, anyMembers_toMembers ih path [] hkeys, bind, Except.bind]

theorem anyObject_toNode {ms : List (String × Json)} (h : Plain (.obj ms)) (path : Path) :
    anyObject path (Json.obj ms).toNode = .ok ms := by
  cases h with
  | obj hkeys hvalues =>
    have hread := anyMembers_toMembers (fun m hm => anyValue_toNode (hvalues m hm)) path [] hkeys
    simp [toNode, anyObject, hread, bind, Except.bind]

/-! ## §2 Strings and lists -/

@[simp] theorem text_toNode (s : String) (path : Path) : text path (Json.str s).toNode = .ok s := by
  simp [toNode, text, needText]

@[simp] theorem textOrNull_toNode (s? : Option String) (path : Path) :
    textOrNull path (strOrNull s?).toNode = .ok s? := by
  cases s? <;> simp [strOrNull, toNode, textOrNull, needText, Functor.map, Except.map]

section

variable {α : Type} {item : Reader α}

theorem listFrom_toNodes {as : List α} {vs : List Json}
    (h : List.Forall₂ (fun a v => ∀ path, item path v.toNode = .ok a) as vs) (path : Path)
    (n : Nat) : listFrom item path n (toNodes vs) = .ok as := by
  induction h generalizing n with
  | nil => rfl
  | cons ha _ ih =>
    simp [toNodes, listFrom, ha, ih, bind, Except.bind, pure, Except.pure]

theorem list_toNode {as : List α} {vs : List Json}
    (h : List.Forall₂ (fun a v => ∀ path, item path v.toNode = .ok a) as vs) (path : Path) :
    list item path (Json.arr vs).toNode = .ok as := by
  simp [toNode, list, listFrom_toNodes h, bind, Except.bind]

end

@[simp] theorem list_text_toNode (ss : List String) (path : Path) :
    list text path (strs ss).toNode = .ok ss := by
  refine list_toNode ?_ path
  rw [List.forall₂_map_right_iff]
  exact List.forall₂_same.2 fun s _ path => text_toNode s path

/-! ## §3 Written forms of an object -/

/-- A part of an object that is to be written. -/
structure Part where
  /-- Its key. -/
  key : String
  /-- When it may be left out. -/
  Spare : Prop
  /-- The values that write it. -/
  Writes : Json → Prop

namespace Part

/-- A part that only the given value writes. -/
def exact (key : String) (Spare : Prop) (v : Json) : Part := ⟨key, Spare, (· = v)⟩

/-- A part that is a list, of whose items each is written by itself. An empty list may be left
    out. -/
def each {α : Type} (key : String) (Writes : α → Json → Prop) (as : List α) : Part :=
  ⟨key, as = [], fun v => ∃ vs, v = .arr vs ∧ List.Forall₂ Writes as vs⟩

end Part

/-- The members that write the given parts in their order, any of the spare ones left out. -/
inductive Abridged : List Part → List (String × Json) → Prop where
  | nil : Abridged [] []
  | write {p : Part} {ps : List Part} {v : Json} {ms : List (String × Json)} :
      p.Writes v → Abridged ps ms → Abridged (p :: ps) ((p.key, v) :: ms)
  | leave {p : Part} {ps : List Part} {ms : List (String × Json)} :
      p.Spare → Abridged ps ms → Abridged (p :: ps) ms

/-- Whether a value is an object that writes the given parts, any of the spare ones left out. -/
def WritesObject (ps : List Part) (v : Json) : Prop := ∃ ms, v = .obj ms ∧ Abridged ps ms

theorem Abridged.exact {key : String} {Spare : Prop} {v : Json} {ps : List Part}
    {ms : List (String × Json)} (h : Abridged ps ms) :
    Abridged (.exact key Spare v :: ps) ((key, v) :: ms) :=
  .write (p := .exact key Spare v) rfl h

theorem Abridged.each {α : Type} {key : String} {Writes : α → Json → Prop} {as : List α}
    {form : α → Json} (hform : ∀ a, Writes a (form a)) {ps : List Part} {ms : List (String × Json)}
    (h : Abridged ps ms) :
    Abridged (.each key Writes as :: ps) ((key, .arr (as.map form)) :: ms) := by
  refine .write (p := .each key Writes as) ⟨as.map form, rfl, ?_⟩ h
  rw [List.forall₂_map_right_iff]
  exact List.forall₂_same.2 fun a _ => hform a

/-! ## §4 Reading the parts one by one -/

section

variable {σ : Type} (member : σ → Option String → Path → Node → Except Fault σ) (path : Path)

/-- Taking in the parts one by one leads from one partial result to another, and a part that may be
    left out makes no difference to it. -/
inductive Fills : σ → List Part → σ → Prop where
  | nil {s : σ} : Fills s [] s
  | cons {s mid s' : σ} {p : Part} {ps : List Part} :
      (∀ v, p.Writes v → member s (some p.key) path v.toNode = .ok mid) → (p.Spare → mid = s) →
      Fills mid ps s' → Fills s (p :: ps) s'

variable {member path}

/-- A step of a reader that keeps what it reads of a part. -/
theorem Fills.exact {s s' : σ} {β : Type} {key : String} {read : Reader β} {keep : β → σ} {b : β}
    {Spare : Prop} {v : Json} {ps : List Part}
    (hmember : ∀ node, member s (some key) path node =
      part key read path node >>= fun b => pure (keep b))
    (hread : ∀ path, read path v.toNode = .ok b) (hspare : Spare → keep b = s)
    (hrest : Fills member path (keep b) ps s') :
    Fills member path s (.exact key Spare v :: ps) s' := by
  refine .cons ?_ hspare hrest
  rintro _ rfl
  rw [Part.exact, hmember, part, hread]
  rfl

theorem Fills.each {s s' : σ} {α : Type} {key : String} {item : Reader α} {keep : List α → σ}
    {Writes : α → Json → Prop} {as : List α} {ps : List Part}
    (hmember : ∀ node, member s (some key) path node =
      part key (list item) path node >>= fun as => pure (keep as))
    (hitem : ∀ a v, Writes a v → ∀ path, item path v.toNode = .ok a)
    (hspare : as = [] → keep as = s) (hrest : Fills member path (keep as) ps s') :
    Fills member path s (.each key Writes as :: ps) s' := by
  refine .cons ?_ hspare hrest
  rintro _ ⟨vs, rfl, hvs⟩
  rw [Part.each, hmember, part, list_toNode (hvs.imp hitem)]
  rfl

theorem membersInto_toMembers {s s' : σ} {ps : List Part} {ms : List (String × Json)}
    (hms : Abridged ps ms) (h : Fills member path s ps s') :
    membersInto member path s (toMembers ms) = .ok s' := by
  induction hms generalizing s with
  | nil =>
    cases h
    rfl
  | write hv _ ih =>
    cases h with
    | cons hread _ hrest =>
      simp [toMembers, membersInto, hread _ hv, ih hrest, bind, Except.bind]
  | leave hspare _ ih =>
    cases h with
    | cons _ hmid hrest =>
      rw [hmid hspare] at hrest
      exact ih hrest

/-- Whatever is left out, a written object is read as what its parts amount to. -/
theorem object_toNode {α : Type} {start s : σ} {finish : Path → σ → Except Fault α} {a : α}
    {ps : List Part} {v : Json} (hv : WritesObject ps v) (h : Fills member path start ps s)
    (hfinish : finish path s = .ok a) : object start member finish path v.toNode = .ok a := by
  obtain ⟨ms, rfl, hms⟩ := hv
  simp [toNode, object, membersInto_toMembers hms h, hfinish, bind, Except.bind]

end

end Json

end TypeAtlas
