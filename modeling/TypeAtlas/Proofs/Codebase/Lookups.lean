import TypeAtlas.Proofs.Codebase.NamesTaken
import TypeAtlas.Proofs.Codebase.Serving

/-!
# What can go wrong with a name

A class is looked for by importing what its name begins with. If no module fails for another reason
than that something is missing, then looking for a name ends with a class or without one, unless the
name begins with a dot: what stands before its last dot is then empty or begins with a dot as well,
and importing that is a fault. No answer names a type that begins with a dot, so only a name from
outside can.

Main statements: `run_classOf_of_dotLed`, `failure_of_ask` and `notDotLed_of_answer`.
-/

namespace TypeAtlas

/-! ## §1 Names that begin with a dot -/

/-- The name begins with a dot. -/
def DotLed (s : String) : Prop := s.toList.head? = some '.'

instance : DecidablePred DotLed := fun s => inferInstanceAs (Decidable (s.toList.head? = some '.'))

theorem not_dotLed_append {s s' : String} (hs : s ≠ "") (h : ¬DotLed s) : ¬DotLed (s ++ s') := by
  unfold DotLed at h ⊢
  rw [String.toList_append]
  cases hcs : s.toList with
  | nil => exact absurd (String.toList_eq_nil_iff.1 hcs) hs
  | cons c cs =>
    rw [hcs] at h
    exact h

/-- What stands before the first dot of a list of characters is a component by itself. -/
theorem exists_splitDotsFrom (acc cs : List Char) :
    ∃ rest, splitDotsFrom acc cs =
      String.ofList (acc.reverse ++ cs.takeWhile (· ≠ '.')) :: rest ∧ ('.' ∈ cs ↔ rest ≠ []) := by
  induction cs generalizing acc with
  | nil => exact ⟨[], by simp [splitDotsFrom], by simp⟩
  | cons c cs ih =>
    by_cases hc : c = '.'
    · subst hc
      obtain ⟨rest, hrest, -⟩ := ih []
      exact ⟨splitDotsFrom [] cs, by simp [splitDotsFrom], by simp [hrest]⟩
    · obtain ⟨rest, hrest, hdots⟩ := ih (c :: acc)
      refine ⟨rest, ?_, ?_⟩
      · rw [splitDotsFrom, hrest]
        · simp [hc]
        · exact hc
      · simpa [Ne.symm hc] using hdots

/-- A name that begins with a dot has an empty component in front of others. -/
theorem DotLed.exists_ofString {s : String} (h : DotLed s) :
    ∃ name rest, Dotted.ofString s = "" :: name :: rest := by
  unfold DotLed at h
  unfold Dotted.ofString
  cases hcs : s.toList with
  | nil =>
    rw [hcs] at h
    cases h
  | cons c cs =>
    rw [hcs] at h
    cases h
    obtain ⟨rest, hrest, hdots⟩ := exists_splitDotsFrom [] ('.' :: cs)
    obtain ⟨name, names, rfl⟩ := List.exists_cons_of_ne_nil (hdots.1 (.head _))
    exact ⟨name, names, by simpa using hrest⟩

/-- Any other name begins with a component that is not empty, unless it has no dot. -/
theorem exists_ofString_of_not_dotLed {s : String} (h : ¬DotLed s) :
    ∃ name rest, Dotted.ofString s = name :: rest ∧ ¬DotLed name ∧ (rest ≠ [] → name ≠ "") := by
  unfold DotLed at h
  unfold Dotted.ofString
  obtain ⟨rest, hrest, hdots⟩ := exists_splitDotsFrom [] s.toList
  refine ⟨_, rest, hrest, ?_, ?_⟩
  · unfold DotLed
    intro hdot
    rw [String.toList_ofList, List.reverse_nil, List.nil_append] at hdot
    have hmem := List.mem_of_mem_head? hdot
    simpa using List.all_eq_true.1 List.all_takeWhile _ hmem
  · intro hne hempty
    have hcs := hdots.2 hne
    cases hs : s.toList with
    | nil =>
      rw [hs] at hcs
      cases hcs
    | cons c cs =>
      rw [hs] at h hempty
      have hc : c ≠ '.' := fun hc => h (hc ▸ rfl)
      simp [hc] at hempty

theorem text_cons (name : String) (rest : List String) :
    ∃ s, Dotted.text (name :: rest) = name ++ s := by
  unfold Dotted.text
  cases rest with
  | nil => exact ⟨"", by simp⟩
  | cons next rest => exact ⟨"." ++ ".".intercalate (next :: rest), by
      rw [String.intercalate_cons_cons, String.append_assoc]⟩

namespace Codebase

/-- The fault of looking for a class by a name that begins with a dot: nothing can be imported by
    what stands before its last dot. -/
def dotFault (name : TypeName) : ImportFault :=
  let outer := Dotted.text (Dotted.ofString name).dropLast
  if outer = "" then .emptyName else .relativeName outer

variable {code : Codebase} {w : World} {m m₁ : Memory} {q : Question} {t u name : TypeName}
  {c d : ClassId} {f : Failure} {K : TypeName → Prop}

theorem run_importModule_empty (code : Codebase) (w : World) :
    (importModule code "").run w = (.error (.fault .emptyName), w) := rfl

theorem run_importModule_of_dotLed (code : Codebase) {module : String} (hdot : DotLed module)
    (w : World) : (importModule code module).run w =
      (.error (.fault (.relativeName module)), w) := by
  have hne : module ≠ "" := by
    rintro rfl
    cases hdot
  unfold importModule
  rw [if_neg hne, if_pos (show module.toList.head? = some '.' from hdot)]
  rfl

theorem run_findClass_of_dotLed (code : Codebase) (hname : DotLed name) (m : Memory) :
    (findClass code name).run m = (.error (.importing (dotFault name)), m) := by
  obtain ⟨next, rest, hpath⟩ := hname.exists_ofString
  unfold findClass dotFault
  rw [hpath]
  dsimp only
  -- the longest part that may be a module is tried first, and it begins like the name
  have hlength : ("" :: next :: rest).length - 1 = rest.length + 1 := rfl
  have htake : ("" :: next :: rest).take (rest.length + 1) = ("" :: next :: rest).dropLast := by
    rw [List.dropLast_eq_take]
    rfl
  rw [hlength, findFrom, htake]
  generalize hwhole : ("" :: next :: rest).dropLast = outer
  have himport : ∀ w, (importModule code (Dotted.text outer)).run w =
      (.error (.fault (if Dotted.text outer = "" then .emptyName
        else .relativeName (Dotted.text outer))), w) := by
    intro w
    by_cases hempty : Dotted.text outer = ""
    · rw [if_pos hempty, hempty, run_importModule_empty]
    · have hdot : DotLed (Dotted.text outer) := by
        obtain ⟨tail, rfl⟩ : ∃ tail, outer = "" :: tail := ⟨(next :: rest).dropLast, hwhole.symm⟩
        cases tail with
        | nil => exact absurd rfl hempty
        | cons a tail =>
          unfold DotLed Dotted.text
          rw [String.intercalate_cons_cons, String.toList_append, String.toList_append]
          rfl
      rw [if_neg hempty, run_importModule_of_dotLed code hdot]
  refine Asking.run_bind_of_error ?_
  unfold tryImport
  rw [ExceptT.run_mk, himport]

/-! ## §2 Quiet codebases -/

/-- A world that imports may lead to. -/
inductive World.Reached (code : Codebase) : World → Prop where
  /-- Nothing has been imported. -/
  | start : Reached code .start
  /-- A module has been imported, or the attempt has been made. -/
  | importing {w : World} (h : Reached code w) (name : String) :
    Reached code ((importModule code name).run w).2

/-- Whatever has been imported before, importing a module by a name ends with it or finds that
    something is missing. -/
def Quiet (code : Codebase) : Prop :=
  ∀ w, World.Reached code w → ∀ name, name ≠ "" → ¬DotLed name → ∀ fault,
    ((importModule code name).run w).1 ≠ .error (.fault fault)

/-- The statement makes a class without bases and with an empty body. -/
def Item.IsPlain (item : Item) : Prop := ∃ name, item = .cls none name [] [] false

/-- The modules make nothing but classes without bases and with empty bodies, and none of them
    fails by itself. -/
def IsPlain (code : Codebase) : Prop :=
  ∀ m ∈ code.modules, (∀ item ∈ m.items, item.IsPlain) ∧ m.raises = none

/-- The first class is the one above all classes. -/
def World.Topped (w : World) : Prop := w.classes.head? = some objectClass

theorem World.Topped.info_objectId (hw : w.Topped) : w.info objectId = objectClass := by
  unfold World.info
  rw [show w.classes[objectId]? = some objectClass from List.head?_eq_getElem?.symm.trans hw]
  rfl

theorem World.Topped.append (hw : w.Topped) (i : ClassInfo) :
    ({ w with classes := w.classes ++ [i] } : World).Topped := by
  unfold World.Topped at hw ⊢
  rw [List.head?_append, hw]
  rfl

theorem World.Topped.apply (hw : w.Topped) (s : SpaceId) (e : Effect) : (w.apply s e).Topped := by
  cases e <;> exact hw

theorem serves_makeClass (place : Place) (frame : Frame) :
    Serves World.Topped (fun _ => True) (· = .missing)
      (makeClass place frame [objectId] [] false) := by
  unfold makeClass
  refine serves_get_bind fun w hw => ?_
  have horder : linearize? w.classes.length [objectId]
      ([objectId].map fun b => (w.info b).order) = some [w.classes.length, objectId] := by
    rw [List.map_singleton, hw.info_objectId]
    rfl
  dsimp only
  rw [horder]
  refine Serves.bind (P := fun _ => True) (serves_pure trivial) fun order _ => ?_
  refine Serves.bind (P := fun _ => True) (serves_modify fun _ _ => hw.append _) fun _ _ => ?_
  exact serves_pure trivial

theorem serves_runModule (importer : Importer) (place : Place) {items : List Item}
    (hitems : ∀ item ∈ items, item.IsPlain) :
    Serves World.Topped (fun _ => True) (· = .missing) (runModule importer place items) := by
  induction items with
  | nil => exact serves_pure trivial
  | cons item items ih =>
    obtain ⟨⟨name, rfl⟩, hrest⟩ := List.forall_mem_cons.1 hitems
    rw [runModule, runItem]
    refine Serves.bind (P := fun _ => True) ?_ fun effects _ => ?_
    · refine (serves_makeClass place _).bind fun c _ => serves_pure trivial
    · refine Serves.bind (P := fun _ => True) (serves_modify fun w hw => ?_) fun _ _ => ih hrest
      exact List.foldlRecOn effects _ hw fun w hw e _ => hw.apply _ e

theorem serves_makeModule (importer : Importer) {m : Module}
    (hm : (∀ item ∈ m.items, item.IsPlain) ∧ m.raises = none) :
    Serves World.Topped (fun _ => True) (· = .missing) (makeModule importer m) := by
  have hcode : ∀ space, Serves World.Topped (fun _ => True) (· = .missing)
      (runCode importer m space) := by
    intro space
    unfold runCode
    refine (serves_runModule importer _ hm.1).bind fun _ _ => ?_
    rw [hm.2]
    exact serves_pure trivial
  refine Serves.of_run fun w hw => ?_
  have hw' : ({ w with
      spaces := w.spaces ++ [{ module := m.name.text }]
      loaded := w.loaded.put m.name.text w.spaces.length } : World).Topped := hw
  have hkeeps := (hcode w.spaces.length).keeps _ hw'
  have hfailure := fun f => (hcode w.spaces.length).failure _ f hw'
  unfold makeModule
  rw [ExceptT.run_mk]
  dsimp only
  split
  · next w₁ hrun =>
    rw [hrun] at hkeeps
    exact .inl ⟨_, _, rfl, hkeeps, trivial⟩
  · next f w₁ hrun =>
    rw [hrun] at hkeeps hfailure
    exact .inr ⟨f, _, rfl, hkeeps, hfailure f rfl⟩

theorem serves_ensure (hcode : code.IsPlain) (importer : Importer) (path : List String) :
    Serves World.Topped (fun _ => True) (· = .missing) (ensure code importer path) := by
  induction path with
  | nil => exact serves_throw rfl
  | cons name outer ih =>
    have hinner : Serves World.Topped (fun _ => True) (· = .missing)
        (makeInner code importer outer.reverse name) := by
      unfold makeInner
      dsimp only
      split
      · exact serves_throw rfl
      · split
        · exact serves_throw rfl
        · next m hfind =>
          refine (serves_makeModule importer (hcode m (List.mem_of_find?_eq_some hfind))).bind
            fun space _ => ?_
          refine Serves.bind (P := fun _ => True) ?_ fun _ _ => serves_pure trivial
          refine serves_modify fun w hw => ?_
          split
          · exact hw.apply _ _
          · exact hw
    unfold ensure
    refine serves_get_bind fun w _ => ?_
    split
    · exact serves_pure trivial
    · -- what comes after the packages have been imported
      dsimp only
      split
      · refine serves_get_bind fun w _ => ?_
        split
        · exact serves_pure trivial
        · exact hinner
      · refine ih.bind fun _ _ => serves_get_bind fun w _ => ?_
        split
        · exact serves_pure trivial
        · exact hinner

theorem serves_importModule (hcode : code.IsPlain) {name : String} (hne : name ≠ "")
    (hdot : ¬DotLed name) :
    Serves World.Topped (fun _ => True) (· = .missing) (importModule code name) := by
  have hwithin : ∀ fuel path, Serves World.Topped (fun _ => True) (· = .missing)
      (importWithin code fuel path) := by
    intro fuel path
    cases fuel with
    | zero => exact serves_throw rfl
    | succ fuel => exact serves_ensure hcode _ _
  unfold importModule
  rw [if_neg hne, if_neg (show ¬name.toList.head? = some '.' from hdot)]
  exact hwithin _ _

/-- Nothing goes wrong when plain modules are imported. -/
theorem IsPlain.quiet (hcode : code.IsPlain) : code.Quiet := by
  have hreached : ∀ w, World.Reached code w → w.Topped := by
    intro w hw
    induction hw with
    | start => rfl
    | @importing w _ name ih =>
      by_cases hne : name = ""
      · rw [hne, run_importModule_empty]
        exact ih
      · by_cases hdot : DotLed name
        · rw [run_importModule_of_dotLed code hdot]
          exact ih
        · exact (serves_importModule hcode hne hdot).keeps w ih
  intro w hw name hne hdot fault hfault
  have := (serves_importModule hcode hne hdot).failure w _ (hreached w hw) hfault
  cases this

/-- Every module has a name, and it does not begin with a dot. -/
def WellNamed (code : Codebase) : Prop :=
  ∀ m ∈ code.modules, m.name.text ≠ "" ∧ ¬DotLed m.name.text

theorem WellNamed.hasModule (hnamed : code.WellNamed) {name : String} (h : code.HasModule name) :
    name ≠ "" ∧ ¬DotLed name := by
  rcases h with (rfl | rfl) | ⟨m, hm, rfl⟩
  · decide
  · decide
  · exact hnamed m hm

/-- The name of a class begins like that of its module. -/
theorem WellNamed.not_dotLed_fullName (hnamed : code.WellNamed) (hw : w.Closed code) (c : ClassId) :
    ¬DotLed (w.fullName c) := by
  obtain ⟨hne, hdot⟩ := hnamed.hasModule (hw.info c).module
  unfold World.fullName ClassInfo.fullName
  rw [String.append_assoc]
  exact not_dotLed_append hne hdot

theorem WellNamed.not_dotLed_declaringName? (hnamed : code.WellNamed) (hw : w.Closed code)
    (h : (w.info c).declaringName? = some name) : ¬DotLed name := by
  obtain ⟨hne, hdot⟩ := hnamed.hasModule (hw.info c).module
  unfold ClassInfo.declaringName? at h
  dsimp only at h
  split at h
  · cases h
  · cases h
    rw [String.append_assoc]
    exact not_dotLed_append hne hdot

/-- What is remembered speaks of a world that imports lead to, no name that is known begins with a
    dot, and the names in question are known. -/
structure Memory.Calm (code : Codebase) (K : TypeName → Prop) (m : Memory) : Prop where
  sound : m.Sound code
  reached : World.Reached code m.world
  plain : ∀ t d, m.known.get? t = some d → ¬DotLed t
  known : ∀ t, K t → ∃ d, m.known.get? t = some d

theorem Memory.calm_start : Memory.start.Calm code fun _ => False where
  sound := sound_start
  reached := .start
  plain := nofun
  known := nofun

theorem reached_tryImport (hm : World.Reached code m.world) (module : String) :
    World.Reached code ((tryImport code module).run m).2.world := by
  have hreached := hm.importing module
  unfold tryImport
  rw [ExceptT.run_mk]
  rcases hrun : (importModule code module).run m.world with ⟨(_ | _) | _, w⟩ <;>
    rw [hrun] at hreached <;> exact hreached

theorem tryImport_ne_error (hquiet : code.Quiet) (hm : World.Reached code m.world)
    {module : String} (hne : module ≠ "") (hdot : ¬DotLed module) (f : Failure) :
    ((tryImport code module).run m).1 ≠ .error f := by
  have hfault := hquiet m.world hm module hne hdot
  unfold tryImport
  rw [ExceptT.run_mk]
  rcases hrun : (importModule code module).run m.world with ⟨(_ | fault) | _, w⟩ <;>
    rw [hrun] at hfault
  · exact nofun
  · exact absurd rfl (hfault fault)
  · exact nofun

theorem reached_findFrom (hm : World.Reached code m.world) (path : Dotted) (n : Nat) :
    World.Reached code ((findFrom code path n).run m).2.world := by
  induction n generalizing m with
  | zero => exact hm
  | succ n ih =>
    have hreached := reached_tryImport hm (Dotted.text (path.take (n + 1)))
    rw [findFrom]
    rcases htry : (tryImport code (Dotted.text (path.take (n + 1)))).run m with ⟨f | found, m₁⟩ <;>
      rw [htry] at hreached
    · rw [Asking.run_bind_of_error htry]
      exact hreached
    · rw [Asking.run_bind_of_ok htry]
      cases found with
      | none => exact ih hreached
      | some space =>
        refine (Asking.run_bind_of_ok (show (get : Asking Memory Memory).run m₁ = (.ok m₁, m₁) from
          rfl)).symm ▸ ?_
        split
        · exact hreached
        · exact ih hreached

/-- In a quiet codebase, looking along names that begin well goes wrong in no way. -/
theorem findFrom_ne_error (hquiet : code.Quiet) (hm : World.Reached code m.world) {first : String}
    {rest : List String} (hne : first ≠ "") (hdot : ¬DotLed first) (n : Nat) (f : Failure) :
    ((findFrom code (first :: rest) n).run m).1 ≠ .error f := by
  induction n generalizing m with
  | zero =>
    intro h
    cases h
  | succ n ih =>
    obtain ⟨tail, htext⟩ := text_cons first (rest.take n)
    have hmodule : Dotted.text ((first :: rest).take (n + 1)) = first ++ tail := htext
    have hreached := reached_tryImport hm (first ++ tail)
    have hpart : first ++ tail ≠ "" := fun h => hne (String.append_eq_empty_iff.1 h).1
    have hgood := tryImport_ne_error hquiet hm hpart (not_dotLed_append hne hdot)
    rw [findFrom, hmodule]
    rcases htry : (tryImport code (first ++ tail)).run m with ⟨g | found, m₁⟩ <;>
      rw [htry] at hreached hgood
    · exact absurd rfl (hgood g)
    · rw [Asking.run_bind_of_ok htry]
      cases found with
      | none => exact ih hreached
      | some space =>
        refine (Asking.run_bind_of_ok (show (get : Asking Memory Memory).run m₁ = (.ok m₁, m₁) from
          rfl)).symm ▸ ?_
        split
        · intro h
          cases h
        · exact ih hreached

/-! ## §3 Finding a class -/

theorem run_classOf_of_dotLed (hm : m.Calm code K) (ht : DotLed t) :
    (classOf code t).run m = (.error (.importing (dotFault t)), m) := by
  have hunknown : m.known.get? t = none := by
    cases hknown : m.known.get? t with
    | none => rfl
    | some d => exact absurd ht (hm.plain t d hknown)
  rw [run_classOf_of_unknown code hunknown]
  exact Asking.run_bind_of_error (run_findClass_of_dotLed code ht m)

/-- The world that finding a class leads to is that in which it has been looked for. -/
theorem reached_classOf (hm : World.Reached code m.world) (t : TypeName) :
    World.Reached code ((classOf code t).run m).2.world := by
  cases ht : m.known.get? t with
  | some c =>
    rw [run_classOf_of_known code ht]
    exact hm
  | none =>
    have hreached : World.Reached code ((findClass code t).run m).2.world :=
      reached_findFrom hm _ _
    rw [run_classOf_of_unknown code ht]
    rcases hfind : (findClass code t).run m with ⟨f | (_ | c), m₁⟩ <;> rw [hfind] at hreached
    · rw [Asking.run_bind_of_error hfind]
      exact hreached
    · rw [Asking.run_bind_of_ok hfind]
      exact hreached
    · rw [Asking.run_bind_of_ok hfind]
      exact hreached

theorem calm_classOf (hm : m.Calm code K) (t : TypeName) :
    ((classOf code t).run m).2.Calm code K := by
  obtain ⟨hkeeps, hsound, -⟩ := recalls_classOf code hm.sound t
  have hreached := reached_classOf hm.reached t
  rcases hrun : (classOf code t).run m with ⟨r, m₁⟩
  rw [hrun] at hkeeps hsound hreached
  refine ⟨hsound, hreached, fun u d hd hdot => ?_, fun u hu => ?_⟩
  · rcases known_of_run_classOf hm.sound hrun hd with hknown | ⟨rfl, rfl⟩
    · exact hm.plain u d hknown hdot
    · -- nothing is found by a name that begins with a dot
      rw [run_classOf_of_dotLed hm hdot] at hrun
      cases hrun
  · obtain ⟨d, hd⟩ := hm.known u hu
    exact ⟨d, hkeeps.known u d hd⟩

/-- In a quiet codebase, a name that does not begin with a dot has a class, or it is not resolved. A
    name that is known has one. -/
theorem failure_of_classOf (hquiet : code.Quiet) (hm : m.Calm code K) (ht : ¬DotLed t)
    (h : ((classOf code t).run m).1 = .error f) : ¬K t ∧ f = .unresolved t := by
  cases hknown : m.known.get? t with
  | some c =>
    rw [run_classOf_of_known code hknown] at h
    cases h
  | none =>
    refine ⟨fun hK => ?_, ?_⟩
    · obtain ⟨d, hd⟩ := hm.known t hK
      exact nomatch hknown.symm.trans hd
    · rw [run_classOf_of_unknown code hknown] at h
      rcases hfind : (findClass code t).run m with ⟨g | (_ | c), m₁⟩
      · -- the parts of the name that are tried as modules begin like the name
        exfalso
        obtain ⟨first, rest, hpath, hdot, hne⟩ := exists_ofString_of_not_dotLed ht
        unfold findClass at hfind
        rw [hpath] at hfind
        cases rest with
        | nil => cases hfind
        | cons next rest =>
          exact findFrom_ne_error hquiet hm.reached (hne (List.cons_ne_nil _ _)) hdot _ g
            (congrArg Prod.fst hfind)
      · rw [Asking.run_bind_of_ok hfind] at h
        exact (Except.error.inj h).symm
      · rw [Asking.run_bind_of_ok hfind] at h
        cases h

/-! ## §4 Questions -/

theorem Memory.Calm.register (hm : m.Calm code K) (hnamed : code.WellNamed)
    (hc : c < m.world.classes.length) : (m.register c).Calm code K where
  sound := hm.sound.register hc
  reached := m.world_register c ▸ hm.reached
  plain t d hd := by
    rcases Memory.known_of_register hd with hknown | rfl
    · exact hm.plain t d hknown
    · exact hnamed.not_dotLed_fullName hm.sound.closed d
  known t ht := by
    obtain ⟨d, hd⟩ := hm.known t ht
    exact ⟨d, (m.keeps_register c).known t d hd⟩

theorem Memory.Calm.foldl_register (hm : m.Calm code K) (hnamed : code.WellNamed)
    {cs : List ClassId} (hcs : ∀ c ∈ cs, c < m.world.classes.length) :
    (cs.foldl Memory.register m).Calm code K := by
  induction cs generalizing m with
  | nil => exact hm
  | cons c cs ih =>
    obtain ⟨hc, hrest⟩ := List.forall_mem_cons.1 hcs
    exact ih (hm.register hnamed hc) fun d hd => m.world_register c ▸ hrest d hd

theorem Memory.Calm.after (hm : m.Calm code K) (hnamed : code.WellNamed) (q : Question) :
    (m.after code q).Calm code K := by
  have hfound : ∀ {t r m₁} {m : Memory}, m.Calm code K → (classOf code t).run m = (r, m₁) →
      m₁.Calm code K ∧ ∀ c, r = .ok c → c < m₁.world.classes.length := by
    intro t r m₁ m hm hrun
    have hcalm := calm_classOf hm t
    obtain ⟨-, hsound, hknown⟩ := recalls_classOf code hm.sound t
    rw [hrun] at hcalm hsound hknown
    exact ⟨hcalm, fun c hc => hsound.known t c (hknown c hc)⟩
  have hasked := asked hm.sound q
  generalize m.after code q = m' at hasked ⊢
  cases hasked with
  | lost h => exact (hfound hm h).1
  | told h hq =>
    obtain ⟨hcalm, hc⟩ := hfound hm h
    refine hcalm.foldl_register hnamed fun d => ?_
    exact lt_of_mem_questionClasses hcalm.sound.closed (hc _ rfl)
  | alone h hq hnone => exact (hfound hm h).1
  | missed h hq hparent hmissed => exact (hfound (hfound hm h).1 hmissed).1
  | around h hq hparent hparent' =>
    obtain ⟨hcalm, hd⟩ := hfound (hfound hm h).1 hparent'
    exact hcalm.register hnamed (hd _ rfl)

/-- In a quiet codebase, a question about a name that does not begin with a dot is answered, or the
    name is not resolved. A search is answered in any case. -/
theorem failure_of_ask (hquiet : code.Quiet) (hnamed : code.WellNamed) (hm : m.Calm code K)
    (hq : ¬DotLed q.wanted) (h : ((q.ask code).run m).1 = .error f) :
    ¬K q.wanted ∧ f = .unresolved q.wanted ∧ ∀ name, q ≠ .search name := by
  rcases hrun : (classOf code q.wanted).run m with ⟨g | c, m₁⟩
  · obtain ⟨hK, rfl⟩ := failure_of_classOf hquiet hm hq (congrArg Prod.fst hrun)
    cases q with
    | resolve name =>
      have hask := Asking.run_bind_of_error (k := fun t => pure [t]) (run_resolve_of_error hrun)
      exact ⟨hK, Except.error.inj (h.symm.trans (congrArg Prod.fst hask)), nofun⟩
    | search name =>
      have hask : ((Question.search name).ask code).run m = (.ok [], m₁) :=
        Asking.run_bind_of_ok (run_resolve?_of_error hrun)
      rw [hask] at h
      cases h
    | about part t =>
      have hask := run_part_of_error hrun part
      exact ⟨hK, Except.error.inj (h.symm.trans (congrArg Prod.fst hask)), nofun⟩
  · exfalso
    cases haround : q.looksAround with
    | false =>
      obtain ⟨ns, hask, -⟩ := run_ask_of_ok hm.sound hrun haround
      rw [hask] at h
      cases h
    | true =>
      have hm₁ := calm_classOf hm q.wanted
      rw [hrun] at hm₁
      cases hparent : (m₁.world.info c).declaringName? with
      | none =>
        rw [run_ask_around haround (run_declaring_of_none hrun hparent)] at h
        cases h
      | some parent =>
        have hparentDot := hnamed.not_dotLed_declaringName? hm₁.sound.closed hparent
        have hdeclaring := run_declaring_of_some hrun hparent
        rcases hfound : (classOf code parent).run m₁ with ⟨g | d, m₂⟩
        · obtain ⟨-, rfl⟩ := failure_of_classOf hquiet hm₁ hparentDot (congrArg Prod.fst hfound)
          rw [run_ask_around haround (hdeclaring.trans (run_resolve?_of_error hfound))] at h
          cases h
        · rw [run_ask_around haround (hdeclaring.trans (run_resolve?_of_ok hfound))] at h
          cases h

/-- No type in an answer begins with a dot, but for what is no reference. -/
theorem notDotLed_of_answer (hnamed : code.WellNamed) (hm : m.Calm code K) {ns : List TypeName}
    (h : ((q.ask code).run m).1 = .ok ns) (hu : u ∈ ns) (hprimitive : isPrimitive u = false) :
    ¬DotLed u := by
  have hafter := hm.after hnamed q
  have hrun : (q.ask code).run m = (.ok ns, m.after code q) := Prod.ext h rfl
  rcases comesUp_of_mem_answer hm.sound hrun hu with ⟨d, -, rfl⟩ | hprim | ⟨name, rfl⟩ | ⟨s, rfl⟩
  · exact hnamed.not_dotLed_fullName hafter.sound.closed d
  · exact absurd (hprimitive.symm.trans hprim) (by decide)
  · exact not_dotLed_append (by decide) (by decide)
  · cases s <;> decide

theorem calm_after (hnamed : code.WellNamed) (qs : List Question) :
    (code.after qs).Calm code fun _ => False := by
  have hfold : ∀ m : Memory, m.Calm code (fun _ => False) →
      (qs.foldl (Memory.after code) m).Calm code fun _ => False := by
    induction qs with
    | nil => exact fun m hm => hm
    | cons q qs ih => exact fun m hm => ih _ (hm.after hnamed q)
  exact hfold _ Memory.calm_start

end Codebase

end TypeAtlas
