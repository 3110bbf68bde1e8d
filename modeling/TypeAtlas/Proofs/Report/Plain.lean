import TypeAtlas.Proofs.Closure.Levels
import TypeAtlas.Proofs.Json.Abridgement
import TypeAtlas.Report.Blocks

/-!
# Reports as documents

The JSON forms of all answers are plain values: no number in them has a fraction, and no object
repeats a key. So each of them, written with a line break behind it, is one document that reads back
as the value.

Main statements: `Json.isDocument_render`, `ClosureTree.plain_toJson`, `Analysis.plain_withFiles`.
-/

namespace TypeAtlas

namespace Json

/-! ## §1 Documents -/

/-- A text is one JSON document with a line break behind it, and reads back as the value. -/
structure IsDocument (v : Json) (text : String) : Prop where
  written : text = v.render ++ "\n"
  read : (Document.ofOctets (Text.encode text)).read anyValue = .ok v

theorem isDocument_render {v : Json} (h : Plain v) : v.IsDocument (v.render ++ "\n") where
  written := rfl
  read := by
    have hblank : Blank "\n".toList := by simp [Blank, isSpace]
    rw [ofOctets_render v hblank]
    simp only [Document.read, anyValue_toNode h, bind, Except.bind, if_true]

/-! ## §2 Plain values -/

theorem plain_nat (n : Nat) : Plain (.nat n) := .int n

/-- An object is plain if its keys are distinct, which are those that it is said to have. -/
theorem plain_obj (keys : List String) {ms : List (String × Json)} (hms : ms.map Prod.fst = keys)
    (hkeys : keys.Nodup) (hvalues : ∀ m ∈ ms, Plain m.2) : Plain (.obj ms) :=
  .obj (hms ▸ hkeys) hvalues

theorem plain_map {α : Type} {form : α → Json} (h : ∀ a, Plain (form a)) (as : List α) :
    Plain (.arr (as.map form)) := by
  apply Plain.arr
  intro v hv
  obtain ⟨a, -, rfl⟩ := List.mem_map.1 hv
  exact h a

theorem plain_strs (ss : List String) : Plain (.strs ss) := plain_map Plain.str ss

end Json

open Json (Plain plain_nat plain_obj plain_map plain_strs)

/-! ## §3 Reports -/

theorem plain_typeToJson (t : TypeName) : Plain (typeToJson t) :=
  plain_obj ["name", "simple_name"] rfl (by decide) (by simp [Plain.str])

theorem plain_candidatesToJson (ts : List TypeName) : Plain (candidatesToJson ts) :=
  plain_map plain_typeToJson ts

theorem Neighbourhood.plain_toJson (n : Neighbourhood) : Plain n.toJson :=
  plain_obj ["type", "references", "referrers"] rfl (by decide)
    (by simp [Plain.str, NameSet.toJson, plain_strs])

mutual

theorem ClosureEntry.plain_fold (e : ClosureEntry) : Plain (ClosureEntry.fold entryForm e) := by
  cases e with
  | node t depth expanded unresolved children =>
    rw [ClosureEntry.fold, entryForm]
    refine plain_obj ["depth", "type", "expanded", "unresolved", "children"] rfl (by decide) ?_
    simp [Plain.str, Plain.bool, plain_nat, Plain.arr (ClosureEntry.plain_foldAll children)]

theorem ClosureEntry.plain_foldAll (es : List ClosureEntry) :
    ∀ v ∈ ClosureEntry.foldAll entryForm es, Plain v := by
  cases es with
  | nil =>
    rw [ClosureEntry.foldAll]
    exact fun v hv => nomatch hv
  | cons e rest =>
    rw [ClosureEntry.foldAll]
    exact List.forall_mem_cons.2 ⟨ClosureEntry.plain_fold e, ClosureEntry.plain_foldAll rest⟩

end

theorem ClosureTree.plain_toJson (c : ClosureTree) : Plain c.toJson := by
  refine plain_obj ["target", "max_depth", "total", "types", "unresolved", "tree"] rfl (by decide)
    ?_
  simp [Plain.str, Plain.int, plain_nat, NameSet.toJson, plain_strs,
    Plain.arr (ClosureEntry.plain_foldAll c.entries)]

theorem plain_methodArgToJson (m : String × Nat) : Plain (methodArgToJson m) :=
  plain_obj ["method", "arguments"] rfl (by decide) (by simp [Plain.str, plain_nat])

theorem Metrics.plain_toJson (m : Metrics) : Plain m.toJson := by
  refine plain_obj ("type" :: Counter.all.map Counter.key ++ ["method_args"]) rfl (by decide) ?_
  have hcounts : ∀ e ∈ Counter.all.map fun c => (c.key, Json.nat (m.count c)), Plain e.2 := by
    intro e he
    obtain ⟨c, -, rfl⟩ := List.mem_map.1 he
    exact plain_nat _
  have hargs : Plain (.arr (m.methodArgs.map methodArgToJson)) :=
    plain_map plain_methodArgToJson m.methodArgs
  intro e he
  rcases List.mem_append.1 he with he | he
  · rcases List.mem_cons.1 he with rfl | he
    · exact .str _
    · exact hcounts e he
  · cases List.mem_singleton.1 he
    exact hargs

theorem Graph.NodeRow.plain_toJson (n : Graph.NodeRow) : Plain n.toJson :=
  plain_obj ["id", "label", "connections"] rfl (by decide) (by simp [Plain.str, plain_nat])

theorem Graph.EdgeRow.plain_toJson (e : Graph.EdgeRow) : Plain e.toJson :=
  plain_obj ["source", "target", "weight"] rfl (by decide) (by simp [Plain.str, plain_nat])

theorem Analysis.plain_withFiles (a : Analysis) (directory : FilePath) :
    Plain (a.withFiles (Analysis.tablePaths directory)) := by
  have hfiles : Plain (.obj ((Analysis.tablePaths directory).map
      fun e => (e.1.key, Json.str e.2.text))) :=
    plain_obj (TableKind.all.map TableKind.key) rfl (by decide)
      (by simp [Analysis.tablePaths, TableKind.all, Plain.str])
  refine plain_obj ["depth", "roots", "unresolved", "metrics", "nodes", "edges", "files"] rfl
    (by decide) ?_
  simp [jsonMembers, Plain.int, plain_strs, plain_map Metrics.plain_toJson,
    plain_map Graph.NodeRow.plain_toJson, plain_map Graph.EdgeRow.plain_toJson, hfiles]

end TypeAtlas
