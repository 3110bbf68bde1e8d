import Mathlib.Data.List.Basic
import Mathlib.Data.List.Find
import TypeAtlas.Codebase.Provider
import TypeAtlas.Proofs.Codebase.Growth
import TypeAtlas.Proofs.Session.Gain

/-!
# What is known of classes

A class that is known by a name stays known by it, and what makes it what it is does not change
when further modules are imported: its name, its bases, and what its body binds. So the questions
about a class, asked one after the other, speak of the same class.

Main statement: `recalls_declaring`, on the class around a class, which is looked for by its name.
-/

namespace TypeAtlas.Codebase

variable {code : Codebase} {w w' : World} {m m' : Memory} {c : ClassId} {t : TypeName}

/-! ## §1 Classes in growing worlds -/

namespace World.Keeps

theorem info (h : w.Keeps w') (hc : c < w.classes.length) : w'.info c = w.info c := by
  obtain ⟨added, hadded⟩ := h
  unfold World.info
  rw [← hadded, List.getElem?_append_left hc]

theorem fullName (h : w.Keeps w') (hc : c < w.classes.length) : w'.fullName c = w.fullName c := by
  unfold World.fullName
  rw [h.info hc]

theorem map_fullName (h : w.Keeps w') {cs : List ClassId} (hcs : ∀ c ∈ cs, c < w.classes.length) :
    cs.map w'.fullName = cs.map w.fullName :=
  List.map_congr_left fun c hc => h.fullName (hcs c hc)

theorem structuralBases (h : w.Keeps w') (hc : c < w.classes.length) :
    w'.structuralBases c = w.structuralBases c := by
  unfold World.structuralBases
  rw [h.info hc]

end World.Keeps

namespace World.Closed

theorem lt_of_mem_structuralBases (hw : w.Closed code) {b : ClassId}
    (hb : b ∈ w.structuralBases c) :
    b < w.classes.length := (hw.info c).bases b (List.mem_filter.1 hb).1

theorem lt_of_mem_interfacesOf (hw : w.Closed code) {b : ClassId} (hb : b ∈ w.interfacesOf c) :
    b < w.classes.length := hw.lt_of_mem_structuralBases (List.mem_filter.1 hb).1

theorem lt_of_mem_superOf (hw : w.Closed code) {b : ClassId} (hb : b ∈ w.superOf c) :
    b < w.classes.length := by
  unfold World.superOf at hb
  split at hb
  · cases hb
  · cases hb
    cases hfind : (w.structuralBases c).find? fun b => !(w.info b).isInterface with
    | none => exact Nat.lt_of_lt_of_le (by decide) hw.builtins
    | some b => exact hw.lt_of_mem_structuralBases (List.mem_of_find?_eq_some hfind)

theorem lt_of_mem_nestedOf (hw : w.Closed code) {d : ClassId} (hd : d ∈ w.nestedOf c) :
    d < w.classes.length := by
  obtain ⟨⟨name, v⟩, hbound, hv⟩ := List.mem_filterMap.1 hd
  have hwithin := (hw.info c).names _ hbound
  cases v with
  | cls e =>
    dsimp only at hv
    split at hv
    · cases hv
      exact hwithin
    · cases hv
  | _ => cases hv

end World.Closed

namespace World.Keeps

theorem interfacesOf (h : w.Keeps w') (hw : w.Closed code) (hc : c < w.classes.length) :
    w'.interfacesOf c = w.interfacesOf c := by
  unfold World.interfacesOf
  rw [h.structuralBases hc]
  refine List.filter_congr fun b hb => ?_
  rw [h.info (hw.lt_of_mem_structuralBases hb)]

theorem superOf (h : w.Keeps w') (hw : w.Closed code) (hc : c < w.classes.length) :
    w'.superOf c = w.superOf c := by
  have hfind : (w'.structuralBases c).find? (fun b => !(w'.info b).isInterface) =
      (w.structuralBases c).find? fun b => !(w.info b).isInterface := by
    rw [h.structuralBases hc]
    refine List.find?_congr fun b hb => ?_
    rw [h.info (hw.lt_of_mem_structuralBases hb)]
  unfold World.superOf
  rw [hfind]

theorem nestedOf (h : w.Keeps w') (hw : w.Closed code) (hc : c < w.classes.length) :
    w'.nestedOf c = w.nestedOf c := by
  unfold World.nestedOf
  rw [h.info hc]
  refine List.filterMap_congr fun e he => ?_
  obtain ⟨name, v⟩ := e
  have hwithin := (hw.info c).names _ he
  cases v with
  | cls d => simp only [h.info hwithin]
  | _ => rfl

end World.Keeps

/-! ## §2 Memory -/

/-- The world is closed, and all classes that are known are in it. -/
structure Memory.Sound (code : Codebase) (m : Memory) : Prop where
  closed : m.world.Closed code
  known : ∀ t c, m.known.get? t = some c → c < m.world.classes.length

/-- Classes are only added, and known ones stay known. -/
structure Memory.Keeps (m m' : Memory) : Prop where
  world : m.world.Keeps m'.world
  known : ∀ t c, m.known.get? t = some c → m'.known.get? t = some c

instance : Std.Refl Memory.Keeps := ⟨fun m => ⟨Std.Refl.refl m.world, fun _ _ h => h⟩⟩

instance : Trans Memory.Keeps Memory.Keeps Memory.Keeps :=
  ⟨fun h h' => ⟨Trans.trans h.world h'.world, fun t c hc => h'.known t c (h.known t c hc)⟩⟩

/-- Classes are only added, and no class becomes known. -/
structure Memory.Imports (m m' : Memory) : Prop where
  world : m.world.Keeps m'.world
  known : m'.known = m.known

instance : Std.Refl Memory.Imports := ⟨fun m => ⟨Std.Refl.refl m.world, rfl⟩⟩

instance : Trans Memory.Imports Memory.Imports Memory.Imports :=
  ⟨fun h h' => ⟨Trans.trans h.world h'.world, h'.known.trans h.known⟩⟩

theorem Memory.Imports.keeps (h : m.Imports m') : m.Keeps m' :=
  ⟨h.world, fun t c hc => by rw [h.known, hc]⟩

/-- What a question comes to: classes are only added, known ones stay known, and the answer has the
    property. -/
abbrev Recalls {α : Type} (code : Codebase) (q : Asking Memory α) (m : Memory)
    (P : Memory → α → Prop) : Prop := Advances Memory.Keeps (Memory.Sound code) q m P

theorem Memory.sound_start : Memory.start.Sound code where
  closed := closed_start
  known _ _ h := nomatch h

namespace Memory

theorem keeps_insert (ht : m.known.get? t = none) (c : ClassId) :
    m.Keeps { m with known := m.known.insert t c } where
  world := Std.Refl.refl m.world
  known u d hd := by
    rw [OrdMap.get?_insert]
    split
    case isTrue htu =>
      rw [htu, ht] at hd
      cases hd
    case isFalse => exact hd

theorem Sound.insert (hm : m.Sound code) (hc : c < m.world.classes.length) (t : TypeName) :
    Memory.Sound code { m with known := m.known.insert t c } where
  closed := hm.closed
  known u d hd := by
    rw [OrdMap.get?_insert] at hd
    split at hd
    · cases hd
      exact hc
    · exact hm.known u d hd

/-- A class that has come up changes nothing, or becomes known by its name. -/
theorem register_cases (m : Memory) (c : ClassId) :
    m.register c = m ∨ m.known.get? (m.world.fullName c) = none ∧
      m.register c = { m with known := m.known.insert (m.world.fullName c) c } := by
  unfold register
  dsimp only
  split
  case isTrue => exact .inl rfl
  case isFalse hnew => exact .inr ⟨by simpa [OrdMap.contains] using hnew, rfl⟩

@[simp] theorem world_register (m : Memory) (c : ClassId) : (m.register c).world = m.world := by
  rcases m.register_cases c with h | ⟨-, h⟩ <;> rw [h]

theorem keeps_register (m : Memory) (c : ClassId) : m.Keeps (m.register c) := by
  rcases m.register_cases c with h | ⟨hnew, h⟩ <;> rw [h]
  · exact Std.Refl.refl m
  · exact keeps_insert hnew c

theorem Sound.register (hm : m.Sound code) (hc : c < m.world.classes.length) :
    (m.register c).Sound code := by
  rcases m.register_cases c with h | ⟨-, h⟩ <;> rw [h]
  · exact hm
  · exact hm.insert hc _

@[simp] theorem world_foldl_register (m : Memory) (cs : List ClassId) :
    (cs.foldl register m).world = m.world := by
  induction cs generalizing m with
  | nil => rfl
  | cons c cs ih => rw [List.foldl_cons, ih, world_register]

theorem keeps_foldl_register (m : Memory) (cs : List ClassId) :
    m.Keeps (cs.foldl register m) := by
  induction cs generalizing m with
  | nil => exact Std.Refl.refl m
  | cons c cs ih => exact Trans.trans (m.keeps_register c) (ih (m.register c))

theorem Sound.foldl_register (hm : m.Sound code) {cs : List ClassId}
    (hcs : ∀ c ∈ cs, c < m.world.classes.length) : (cs.foldl Memory.register m).Sound code := by
  induction cs generalizing m with
  | nil => exact hm
  | cons c cs ih =>
    obtain ⟨hc, hrest⟩ := List.forall_mem_cons.1 hcs
    refine ih (hm.register hc) fun d hd => ?_
    rw [world_register]
    exact hrest d hd

end Memory

/-! ## §3 Finding classes -/

variable (code)

theorem imports_tryImport (hm : m.Sound code) (module : String) :
    Advances Memory.Imports (Memory.Sound code) (tryImport code module) m fun _ _ => True := by
  obtain ⟨hkeeps, hclosed, -⟩ := grows_importModule code module hm.closed
  have hstep : ∀ w', m.world.Keeps w' → w'.Closed code →
      m.Imports { m with world := w' } ∧ Memory.Sound code { m with world := w' } :=
    fun w' hkeeps hclosed => ⟨⟨hkeeps, rfl⟩, hclosed, fun t c hc =>
      Nat.lt_of_lt_of_le (hm.known t c hc) hkeeps.length_le⟩
  have hrun : ((tryImport code module).run m).2 =
      { m with world := ((importModule code module).run m.world).2 } := by
    unfold tryImport
    rw [ExceptT.run_mk]
    rcases (importModule code module).run m.world with ⟨(_ | _) | _, _⟩ <;> rfl
  constructor
  · rw [hrun]
    exact (hstep _ hkeeps hclosed).1
  · rw [hrun]
    exact (hstep _ hkeeps hclosed).2
  · exact fun _ _ => trivial

theorem imports_findFrom (hm : m.Sound code) (path : Dotted) (n : Nat) :
    Advances Memory.Imports (Memory.Sound code) (findFrom code path n) m
      fun m' found => ∀ c, found = some c → c < m'.world.classes.length := by
  -- from the longest prefix of the path that may be a module to shorter ones
  induction n generalizing m with
  | zero => exact advances_pure hm nofun
  | succ n ih =>
    rw [findFrom]
    refine (imports_tryImport code hm _).bind fun space m₁ hm₁ _ _ => ?_
    cases space with
    | none => exact ih hm₁
    | some space =>
      refine advances_get_bind ?_
      split
      case h_1 c hc =>
        refine advances_pure hm₁ ?_
        rintro _ ⟨⟩
        unfold World.classAt? at hc
        split at hc
        case h_1 d hd =>
          cases hc
          exact hm₁.closed.follow? (v := .module space) trivial hd
        case h_2 => cases hc
      case h_2 => exact ih hm₁

theorem run_classOf_of_known (hc : m.known.get? t = some c) :
    (classOf code t).run m = (.ok c, m) := by
  unfold classOf
  rw [Asking.run_bind_of_ok (show (get : Asking Memory Memory).run m = (.ok m, m) from rfl), hc]
  rfl

/-- The class of a name that is not yet known is looked for. -/
theorem run_classOf_of_unknown (ht : m.known.get? t = none) :
    (classOf code t).run m = (findClass code t >>= fun found => match found with
      | none => throw (.unresolved t)
      | some c => do
        modify fun m => { m with known := m.known.insert t c }
        return c).run m := by
  have hget : (get : Asking Memory Memory).run m = (.ok m, m) := rfl
  unfold classOf
  refine (Asking.run_bind_of_ok hget).trans ?_
  split
  case h_1 hc => exact nomatch ht.symm.trans hc
  case h_2 => rfl

theorem imports_findClass (hm : m.Sound code) (name : TypeName) :
    Advances Memory.Imports (Memory.Sound code) (findClass code name) m
      fun m' found => ∀ c, found = some c → c < m'.world.classes.length :=
  imports_findFrom code hm _ _

/-- A name is known once a class has been found by it. -/
theorem recalls_classOf (hm : m.Sound code) (t : TypeName) :
    Recalls code (classOf code t) m fun m' c => m'.known.get? t = some c := by
  refine advances_get_bind ?_
  split
  case h_1 c hc => exact advances_pure hm hc
  case h_2 ht =>
    -- importing knows no class by any name, so the one that is found is the first known by this one
    obtain ⟨himports, hsound, hfound⟩ := imports_findClass code hm t
    have hfind : Recalls code (findClass code t) m fun m' found =>
        m'.known.get? t = none ∧ ∀ c, found = some c → c < m'.world.classes.length :=
      ⟨himports.keeps, hsound, fun found hrun => ⟨himports.known ▸ ht, hfound found hrun⟩⟩
    refine hfind.bind fun found m₁ hm₁ _ hbound => ?_
    obtain ⟨ht₁, hbound⟩ := hbound
    cases found with
    | none => exact advances_throw hm₁ _
    | some c =>
      have hlearn : Recalls code (modify fun m => { m with known := m.known.insert t c }) m₁
          fun m' (_ : PUnit) => m'.known.get? t = some c :=
        ⟨Memory.keeps_insert ht₁ c, hm₁.insert (hbound c rfl) t, fun _ _ => by
          exact OrdMap.get?_insert.trans (if_pos rfl)⟩
      exact hlearn.bind fun _ m₂ hm₂ _ hc => advances_pure hm₂ hc

/-- A name that no class is found by is not known afterwards. -/
theorem unknown_of_run_classOf {f : Failure} (hm : m.Sound code)
    (hrun : (classOf code t).run m = (.error f, m')) : m'.known.get? t = none := by
  cases ht : m.known.get? t with
  | some c =>
    rw [run_classOf_of_known code ht] at hrun
    cases hrun
  | none =>
    rw [run_classOf_of_unknown code ht] at hrun
    obtain ⟨himports, -, -⟩ := imports_findClass code hm t
    rcases hfind : (findClass code t).run m with ⟨f | (_ | c), m'⟩ <;>
      rw [hfind] at himports
    · rw [Asking.run_bind_of_error hfind] at hrun
      cases hrun
      exact himports.known ▸ ht
    · rw [Asking.run_bind_of_ok hfind] at hrun
      cases hrun
      exact himports.known ▸ ht
    · rw [Asking.run_bind_of_ok hfind] at hrun
      cases hrun

theorem run_registered (c : ClassId) (m : Memory) :
    (registered c).run m = (.ok (m.world.fullName c), m.register c) := by
  have hrun : (registered c).run m = (.ok ((m.register c).world.fullName c), m.register c) := rfl
  rw [hrun, Memory.world_register]

section Resolving

variable {code} {f : Failure}

theorem run_resolve_of_ok (h : (classOf code t).run m = (.ok c, m')) :
    (resolve code t).run m = (.ok (m'.world.fullName c), m'.register c) := by
  unfold resolve
  rw [Asking.run_bind_of_ok h, run_registered]

theorem run_resolve_of_error (h : (classOf code t).run m = (.error f, m')) :
    (resolve code t).run m = (.error f, m') := Asking.run_bind_of_error h

theorem run_resolve?_of_ok (h : (classOf code t).run m = (.ok c, m')) :
    (resolve? code t).run m = (.ok (some (m'.world.fullName c)), m'.register c) := by
  unfold resolve?
  rw [ExceptT.run_mk, run_resolve_of_ok h]

/-- A failure told as the lack of a type, if it is one. -/
def silenced : Failure → Except Failure (Option TypeName)
  | .unresolved _ => .ok none
  | f => .error f

theorem run_resolve?_of_error (h : (classOf code t).run m = (.error f, m')) :
    (resolve? code t).run m = (silenced f, m') := by
  unfold resolve?
  rw [ExceptT.run_mk, run_resolve_of_error h]
  cases f <;> rfl

end Resolving

/-- A name stands for the class that is known by it afterwards. -/
theorem recalls_resolve? (hm : m.Sound code) (name : TypeName) :
    Recalls code (resolve? code name) m fun m' found =>
      ∀ u, u ∈ found ↔ ∃ c, m'.known.get? name = some c ∧ u = m'.world.fullName c := by
  obtain ⟨hkeeps, hsound, hresult⟩ := recalls_classOf code hm name
  rcases hclass : (classOf code name).run m with ⟨f | c, m₁⟩ <;>
    rw [hclass] at hkeeps hsound hresult
  · -- no class has been found, and if that is told then none is known by the name
    have hunknown := unknown_of_run_classOf code hm hclass
    have hrun := run_resolve?_of_error hclass
    refine ⟨?_, ?_, ?_⟩ <;> rw [hrun]
    · exact hkeeps
    · exact hsound
    · cases f with
      | unresolved _ =>
        rintro _ ⟨⟩ u
        simp [hunknown]
      | _ => rintro _ ⟨⟩
  · -- the class is registered under its own name too, which it may not have been found by
    have hc := hresult c rfl
    have hrun := run_resolve?_of_ok hclass
    refine ⟨?_, ?_, ?_⟩ <;> rw [hrun]
    · exact Trans.trans hkeeps (m₁.keeps_register c)
    · exact hsound.register (hsound.known name c hc)
    · rintro _ ⟨⟩ u
      have hkept := (m₁.keeps_register c).known name c hc
      simp [hkept, eq_comm]

theorem recalls_asking {α : Type} (hm : m.Sound code) (answer : World → ClassId → α)
    (t : TypeName) :
    Recalls code (asking code answer t) m fun m' a =>
      ∃ c, m'.known.get? t = some c ∧ a = answer m'.world c :=
  (recalls_classOf code hm t).bind fun c _ hm₁ _ hc =>
    advances_get_bind (advances_pure hm₁ ⟨c, hc, rfl⟩)

/-! ## §4 Around a class -/

/-- The name is that of the class that is known by the name of the class around the class. -/
def Memory.Around (m : Memory) (c : ClassId) (u : TypeName) : Prop :=
  ∃ parent d, (m.world.info c).declaringName? = some parent ∧ m.known.get? parent = some d ∧
    u = m.world.fullName d

variable {code} in
theorem Memory.Around.keeps {u : TypeName} (h : m.Around c u) (hkeeps : m.Keeps m')
    (hm : m.Sound code)
    (hc : c < m.world.classes.length) : m'.Around c u := by
  obtain ⟨parent, d, hparent, hd, rfl⟩ := h
  refine ⟨parent, d, ?_, hkeeps.known _ _ hd, ?_⟩
  · rw [hkeeps.world.info hc, hparent]
  · rw [hkeeps.world.fullName (hm.known _ _ hd)]

/-- The type around a type, as it is found, is the class that is known by its name afterwards. -/
theorem recalls_declaring (hm : m.Sound code) (t : TypeName) :
    Recalls code (declaring code t) m fun m' found =>
      ∃ c, m'.known.get? t = some c ∧ ∀ u, u ∈ found ↔ m'.Around c u := by
  refine (recalls_asking code hm _ t).bind fun parent m₁ hm₁ _ hparent => ?_
  obtain ⟨c, hc, rfl⟩ := hparent
  -- the class says what is around it by a name, which is looked for in its turn
  split
  case h_1 hnone =>
    refine advances_pure hm₁ ⟨c, hc, fun u => iff_of_false (by rintro ⟨⟩) ?_⟩
    rintro ⟨parent, d, hparent, -⟩
    cases hnone.symm.trans hparent
  case h_2 parent hparent =>
    obtain ⟨hkeeps, hsound, hfound⟩ := recalls_resolve? code hm₁ parent
    refine ⟨hkeeps, hsound, fun found hrun => ⟨c, hkeeps.known _ _ hc, fun u => ?_⟩⟩
    have hinfo := hkeeps.world.info (hm₁.known _ _ hc)
    rw [hfound found hrun u]
    apply Iff.intro
    · rintro ⟨d, hd, rfl⟩
      exact ⟨parent, d, by rw [hinfo, hparent], hd, rfl⟩
    · rintro ⟨parent', d, hparent', hd, rfl⟩
      rw [hinfo, hparent] at hparent'
      cases hparent'
      exact ⟨d, hd, rfl⟩

/-! ## §5 Questions about found classes -/

theorem exists_of_run_bind {α β : Type} {q : Asking Memory α} {k : α → Asking Memory β} {b : β}
    (h : (q >>= k).run m = (.ok b, m')) :
    ∃ a m₁, q.run m = (.ok a, m₁) ∧ (k a).run m₁ = (.ok b, m') := by
  rcases hrun : q.run m with ⟨f | a, m₁⟩
  · rw [Asking.run_bind_of_error hrun] at h
    cases h
  · rw [Asking.run_bind_of_ok hrun] at h
    exact ⟨a, m₁, rfl, h⟩

theorem run_asking {α : Type} (hclass : (classOf code t).run m = (.ok c, m'))
    (answer : World → ClassId → α) :
    (asking code answer t).run m = (.ok (answer m'.world c), m') := by
  unfold asking
  rw [Asking.run_bind_of_ok hclass]
  rfl

/-- Asking for the class around a class begins with finding the class. -/
theorem run_declaring_of_run_classOf (hclass : (classOf code t).run m = (.ok c, m'))
    (hc : m'.known.get? t = some c) : (declaring code t).run m = (declaring code t).run m' := by
  unfold declaring
  rw [Asking.run_bind_of_ok (run_asking code hclass _),
    Asking.run_bind_of_ok (run_asking code (run_classOf_of_known code hc) _)]

theorem run_mapM_registered (cs : List ClassId) (m : Memory) :
    (cs.mapM registered).run m = (.ok (cs.map m.world.fullName), cs.foldl Memory.register m) := by
  induction cs generalizing m with
  | nil => rfl
  | cons c cs ih =>
    rw [List.mapM_cons, Asking.run_bind_of_ok (run_registered c m), Asking.run_bind_of_ok (ih _),
      Memory.world_register]
    rfl

theorem run_naming (hclass : (classOf code t).run m = (.ok c, m'))
    (classes : World → ClassId → List ClassId) :
    (naming code classes t).run m =
      (.ok ((classes m'.world c).map m'.world.fullName),
        (classes m'.world c).foldl Memory.register m') := by
  unfold naming
  rw [Asking.run_bind_of_ok (run_asking code hclass classes), run_mapM_registered]

/-- Telling the names of other classes makes these known. What is told still holds in every later
    world, if the classes next to this one do not change. -/
theorem keeps_of_run_naming {classes : World → ClassId → List ClassId} {ns : List TypeName}
    (hm : m.Sound code) (hc : m.known.get? t = some c)
    (hclasses : ∀ d ∈ classes m.world c, d < m.world.classes.length)
    (hstable : ∀ w, m.world.Keeps w → classes w c = classes m.world c)
    (hrun : (naming code classes t).run m = (.ok ns, m')) :
    m.Keeps m' ∧ m'.Sound code ∧
      ∀ last : Memory, m'.Keeps last → ns = (classes last.world c).map last.world.fullName := by
  rw [run_naming code (run_classOf_of_known code hc) classes] at hrun
  cases hrun
  have hkeeps := m.keeps_foldl_register (classes m.world c)
  refine ⟨hkeeps, hm.foldl_register hclasses, fun last hlast => ?_⟩
  have hworld : m.world.Keeps last.world := (Trans.trans hkeeps hlast : m.Keeps last).world
  rw [hstable _ hworld, hworld.map_fullName hclasses]

theorem run_describing {α β : Type} (hclass : (classOf code t).run m = (.ok c, m'))
    (describe : World → ClassId → List α) (mentions : α → List Mention) (form : α → β) :
    (describing code describe mentions form t).run m =
      (.ok ((describe m'.world c).map form),
        m'.registerAll ((describe m'.world c).flatMap mentions)) := by
  unfold describing
  rw [Asking.run_bind_of_ok (run_asking code hclass describe)]
  rfl

/-- Describing a class makes the classes known that its description mentions. -/
theorem exists_run_describing_of_known {α β : Type} (hc : m.known.get? t = some c)
    (describe : World → ClassId → List α) (mentions : α → List Mention) (form : α → β) :
    ∃ m', (describing code describe mentions form t).run m =
        (.ok ((describe m.world c).map form), m') ∧ m'.world = m.world ∧ m.Keeps m' :=
  ⟨_, run_describing code (run_classOf_of_known code hc) describe mentions form,
    m.world_foldl_register _, m.keeps_foldl_register _⟩

end TypeAtlas.Codebase
