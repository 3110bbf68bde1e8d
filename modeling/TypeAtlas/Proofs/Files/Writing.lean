import TypeAtlas.CommandLine.Outcome

/-!
# Writing tables into a directory

The tables of an analysis can be written if their directory can be made and none of their places in
it is a directory. What they hold makes no difference, and neither do the tables written before.

Main statement: `CommandLine.Writable.exportTables_snd`.
-/

namespace TypeAtlas

namespace FileTree

variable {t t' : FileTree} {l m : Location}

/-! ## §1 Ways through directories -/

theorem look_eq_directory_iff : t.look l = .directory ↔ t.isDirectory l = true := by
  unfold look
  by_cases h : t.isDirectory l = true
  · simp [h]
  · rw [if_neg h]
    cases t.files.lookup l <;> simp [h]

/-- Every place on the way from a place is a directory. -/
def Passes (t : FileTree) : Location → List String → Prop
  | l, [] => t.isDirectory l = true
  | l, name :: rest => t.isDirectory l = true ∧ t.Passes (l.step name) rest

theorem Passes.end_isDirectory {parts : List String} (h : t.Passes l parts) :
    t.isDirectory (parts.foldl Location.step l) = true := by
  induction parts generalizing l with
  | nil => exact h
  | cons name parts ih => exact ih h.2

/-- A walk along a way through directories goes on where the way ends. -/
theorem Passes.walk_append {parts : List String} (h : t.Passes l parts) (rest : List String) :
    t.walk l (parts ++ rest) = t.walk (parts.foldl Location.step l) rest := by
  induction parts generalizing l with
  | nil => rfl
  | cons name parts ih =>
    obtain ⟨hl, hrest⟩ := h
    rw [List.cons_append, walk, look_eq_directory_iff.2 hl]
    exact ih hrest

theorem Passes.mono {parts : List String} (h : t.Passes l parts)
    (hkeep : ∀ m, t.isDirectory m = true → t'.isDirectory m = true) : t'.Passes l parts := by
  induction parts generalizing l with
  | nil => exact hkeep l h
  | cons name parts ih => exact ⟨hkeep l h.1, ih h.2⟩

/-! ## §2 Making directories -/

theorem isDirectory_addDirectory (t : FileTree) (l m : Location) :
    { t with directories := t.directories ++ [l] }.isDirectory m =
      (t.isDirectory m || m.isPrefixOf l) := by
  simp only [isDirectory, List.any_append, List.any_cons, List.any_nil, Bool.or_false]
  ac_rfl

/-- The directories on a way that could be made are directories, and the others stay so. -/
theorem passes_of_makeWay {parts : List String} (hl : t.isDirectory l = true)
    (h : t.makeWay l parts = .ok t') :
    t'.Passes l parts ∧ ∀ m, t.isDirectory m = true → t'.isDirectory m = true := by
  induction parts generalizing t l with
  | nil =>
    cases h
    exact ⟨hl, fun _ hm => hm⟩
  | cons name parts ih =>
    rw [makeWay] at h
    split at h
    case h_1 hnext =>
      obtain ⟨hpasses, hkeep⟩ := ih (look_eq_directory_iff.1 hnext) h
      exact ⟨⟨hkeep l hl, hpasses⟩, hkeep⟩
    case h_2 => cases h
    case h_3 =>
      -- the next place is a directory from now on
      have hadd := isDirectory_addDirectory t (l.step name)
      have hnext := hadd (l.step name)
      rw [List.isPrefixOf_iff_prefix.2 (List.prefix_refl _), Bool.or_true] at hnext
      obtain ⟨hpasses, hkeep⟩ := ih hnext h
      have hkeep' : ∀ m, t.isDirectory m = true → t'.isDirectory m = true := by
        intro m hm
        apply hkeep
        rw [hadd, hm, Bool.true_or]
      exact ⟨⟨hkeep' l hl, hpasses⟩, hkeep'⟩

/-! ## §3 Writing files -/

theorem isDirectory_addFile (t : FileTree) (l m : Location) (content : Octets) :
    { t with files := t.files ++ [(l, content)] }.isDirectory m =
      (t.isDirectory m || (m.isPrefixOf l && m != l)) := by
  simp only [isDirectory, List.any_append, List.any_cons, List.any_nil, Bool.or_false]
  ac_rfl

theorem isDirectory_setFile (t : FileTree) (l m : Location) (content : Octets) :
    ({ t with files := t.files.map fun f => if f.1 = l then (f.1, content) else f } :
      FileTree).isDirectory m = t.isDirectory m := by
  have hplace : ∀ f : Location × Octets, (if f.1 = l then (f.1, content) else f).1 = f.1 := by
    intro f
    split <;> rfl
  simp only [isDirectory, List.any_map, Function.comp_def, hplace]

/-- A file can be written wherever a path leads to no directory. The directories stay, and what
    becomes one is on the way to the file. -/
theorem exists_write {p : FilePath} {standing : Standing} (hfind : t.find p = .ok standing)
    (hstanding : standing ≠ .directory) (content : Octets) :
    ∃ t', t.write p content = .ok t' ∧
      (∀ m, t.isDirectory m = true → t'.isDirectory m = true) ∧
      ∀ m, t'.isDirectory m = true →
        t.isDirectory m = true ∨ (m <+: Location.ofPath p ∧ m ≠ Location.ofPath p) := by
  unfold write
  rw [hfind]
  cases standing with
  | directory => exact absurd rfl hstanding
  | file old =>
    refine ⟨_, rfl, ?_, ?_⟩
    · exact fun m hm => (isDirectory_setFile t _ m content).trans hm
    · exact fun m hm => .inl ((isDirectory_setFile t _ m content).symm.trans hm)
  | nothing =>
    refine ⟨_, rfl, ?_, ?_⟩ <;> intro m hm
    · rw [isDirectory_addFile, hm, Bool.true_or]
    · rw [isDirectory_addFile] at hm
      simpa using hm

/-! ## §4 Files in one directory -/

/-- There is a way through directories to the directory, and the names in it can be those of
    files. -/
structure Takes (t : FileTree) (directory : FilePath) (names : List String) : Prop where
  passes : t.Passes (Location.start directory) directory.parts
  free : ∀ n ∈ names, n ≠ Location.above ∧
    t.isDirectory (Location.ofPath directory ++ [n]) = false

theorem ofPath_child {directory : FilePath} {n : String} (hn : n ≠ Location.above) :
    Location.ofPath (directory.child n) = Location.ofPath directory ++ [n] := by
  unfold Location.ofPath FilePath.child
  rw [List.foldl_append, List.foldl_cons, List.foldl_nil, Location.step, if_neg hn]
  rfl

/-- The first of the files can be written, and then the others still can. -/
theorem Takes.exists_write {directory : FilePath} {n : String} {names : List String}
    (h : t.Takes directory (n :: names)) (content : Octets) :
    ∃ t', t.write (directory.child n) content = .ok t' ∧ t'.Takes directory names := by
  obtain ⟨hn, hfree⟩ := h.free n (.head _)
  have hplace : Location.ofPath (directory.child n) = Location.ofPath directory ++ [n] :=
    ofPath_child hn
  have hfind : t.find (directory.child n) =
      .ok (t.look (Location.ofPath directory ++ [n])) := by
    have hwalk := h.passes.walk_append [n]
    rw [walk, look_eq_directory_iff.2 h.passes.end_isDirectory, walk, Location.step, if_neg hn]
      at hwalk
    exact hwalk
  have hstanding : t.look (Location.ofPath directory ++ [n]) ≠ .directory := by
    rw [ne_eq, look_eq_directory_iff, hfree]
    exact Bool.false_ne_true
  obtain ⟨t', hwrite, hkeep, hnew⟩ := FileTree.exists_write hfind hstanding content
  refine ⟨t', hwrite, h.passes.mono hkeep, ?_⟩
  intro m hm
  obtain ⟨hm, hfree⟩ := h.free m (.tail _ hm)
  refine ⟨hm, Bool.eq_false_iff.2 ?_⟩
  intro hdirectory
  rcases hnew _ hdirectory with hold | ⟨hpre, hne⟩
  · exact Bool.false_ne_true (hfree.symm.trans hold)
  · -- two places in one directory are not on the way to each other
    rw [hplace] at hpre hne
    exact hne (hpre.eq_of_length (by simp))

end FileTree

/-! ## §5 Tables -/

namespace CommandLine

/-- The tables of an analysis can be written into the directory: it can be made, from a directory
    on, and none of the places of the tables is a directory then. -/
structure Writable (tree : FileTree) (directory : FilePath) : Prop where
  start : tree.isDirectory (Location.start directory) = true
  made : ∃ made, tree.makeDirectory directory = .ok made ∧
    ∀ k ∈ TableKind.all, made.isDirectory (Location.ofPath directory ++ [k.fileName]) = false

theorem writeTables_snd (a : Analysis) {directory : FilePath} (kinds : List TableKind)
    {tree : FileTree} (h : tree.Takes directory (kinds.map TableKind.fileName)) :
    (writeTables tree a (kinds.map fun k => (k, directory.child k.fileName))).2 = none := by
  induction kinds generalizing tree with
  | nil => rfl
  | cons k kinds ih =>
    obtain ⟨next, hwrite, hnext⟩ := h.exists_write (Text.encode (a.tableText k))
    simp only [List.map_cons, writeTables, hwrite, ih hnext]

/-- Writing the tables of whatever analysis into such a directory ends without a fault. -/
theorem Writable.exportTables_snd {tree : FileTree} {directory : FilePath}
    (h : Writable tree directory) (a : Analysis) : (exportTables tree a directory).2 = none := by
  obtain ⟨made, hmade, hfree⟩ := h.made
  obtain ⟨hpasses, -⟩ := FileTree.passes_of_makeWay h.start hmade
  have hnames : ∀ k, TableKind.fileName k ≠ Location.above := by
    intro k
    cases k <;> decide
  unfold exportTables
  rw [hmade]
  apply writeTables_snd a TableKind.all
  refine ⟨hpasses, ?_⟩
  intro n hn
  obtain ⟨k, hk, rfl⟩ := List.mem_map.1 hn
  exact ⟨hnames k, hfree k hk⟩

end CommandLine

end TypeAtlas
