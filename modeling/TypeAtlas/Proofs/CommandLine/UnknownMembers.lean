import TypeAtlas.CommandLine.Sources
import TypeAtlas.Proofs.CommandLine.Settings
import TypeAtlas.Proofs.Json.Printing
import TypeAtlas.Proofs.Schema.Rearrangement

/-!
# Members that are not known

A schema file may hold members of its own besides those of the format, and its members may stand in
any order. A settings file may hold none but its own: with any other member it is refused, whatever
the other members are.

Main statement: `CommandLine.schemas_lenient_settings_strict`.
-/

namespace TypeAtlas

/-! ## §1 Settings -/

namespace Config

open Json

/-- The names of the parts of a settings file. -/
def keys : List String :=
  ["depth", "transitive_edges", "include_hierarchy_root", "hierarchy_roots", "primitives",
    "output_dir", "schema", "import_paths"]

/-- No member of another name is read. -/
theorem exists_key_of_member {p q : Parts} {key : Option String} {path : Path} {n : Node}
    (h : member p key path n = .ok q) : ∃ k ∈ keys, key = some k := by
  unfold member at h
  split at h
  case h_9 =>
    obtain ⟨_, -, h⟩ := bind_eq_ok_iff.1 h
    cases h
  all_goals exact ⟨_, by simp [keys], rfl⟩

theorem exists_key_of_membersInto {path : Path} {ms : List (Option String × Node)} {p q : Parts}
    (h : membersInto member path p ms = .ok q) : ∀ m ∈ ms, ∃ k ∈ keys, m.1 = some k := by
  induction ms generalizing p with
  | nil => exact fun _ hm => absurd hm List.not_mem_nil
  | cons m ms ih =>
    obtain ⟨key, n⟩ := m
    obtain ⟨_, hmember, hms⟩ := membersInto_cons_iff.1 h
    exact List.forall_mem_cons.2 ⟨exists_key_of_member hmember, ih hms⟩

/-- An object with a member of another name is not in the form of settings. -/
theorem exists_fault_of_unknown {bs : Octets} {ms : List (Option String × Node)}
    (hbs : Spells (.obj ms true) (Text.scan bs)) (hunknown : ∃ m ∈ ms, ∀ k ∈ keys, m.1 ≠ some k) :
    ∃ fault, ofOctets bs = .error (.form fault) := by
  have hdocument : Document.ofOctets bs = ⟨.obj ms true, true⟩ := spells_iff.1 hbs
  simp only [ofOctets, hdocument]
  cases hread : object {} member (fun _ p => .ok p) [] (.obj ms true) with
  | error fault => exact ⟨fault, rfl⟩
  | ok p =>
    obtain ⟨q, hq, -⟩ := object_obj_eq_ok_iff.1 hread
    obtain ⟨m, hm, hkeys⟩ := hunknown
    obtain ⟨k, hk, hkey⟩ := exists_key_of_membersInto hq m hm
    exact absurd hkey (hkeys k hk)

end Config

/-! ## §2 Schemas and settings -/

namespace CommandLine

open Json

/-- A file that gives no settings is complained of. -/
theorem loadConfig_of_error {around : Surroundings} {p : FilePath} {bs : Octets}
    (hread : around.tree.read p = .ok bs) {fault : Config.Fault}
    (hfault : Config.ofOctets bs = .error fault) :
    loadConfig around p = .error (.complaint
      ("Invalid config " ++ p.text ++ ": " ++ fault.message (around.malformed bs))) := by
  unfold loadConfig
  rw [hread]
  dsimp only
  rw [hfault]

/-- Of a file with a schema, the members of any object with distinct keys may be put into another
    order, members of other names with values that are well formed may be added to the descriptions
    of the format, and the value may be spelled in another way: the file holds the same schema. A
    settings file with a member of another name is refused. -/
theorem schemas_lenient_settings_strict :
    (∀ bs s, Schema.ofOctets bs = .ok s →
      ∃ n, Spells n (Text.scan bs) ∧
        ∀ n' bs', Relation.ReflTransGen (Rearranged Schema.shape) n n' →
          Spells n' (Text.scan bs') → ∃ s', Schema.ofOctets bs' = .ok s' ∧ s.Same s') ∧
      ∀ (around : Surroundings) p bs ms, around.tree.read p = .ok bs →
        Spells (.obj ms true) (Text.scan bs) → (∃ m ∈ ms, ∀ k ∈ Config.keys, m.1 ≠ some k) →
        ∃ fault : Json.Fault, loadConfig around p = .error (.complaint
          ("Invalid config " ++ p.text ++ ": " ++ fault.message (around.malformed bs))) := by
  refine ⟨fun bs s hs => ?schemas, fun around p bs ms hread hbs hunknown => ?settings⟩
  case schemas =>
    obtain ⟨n, hn, -⟩ := Schema.ofOctets_eq_ok_iff.1 hs
    exact ⟨n, hn, fun n' bs' hsteps hn' => Schema.exists_ofOctets_rearranged hs hn hsteps hn'⟩
  case settings =>
    obtain ⟨fault, hfault⟩ := Config.exists_fault_of_unknown hbs hunknown
    exact ⟨fault, loadConfig_of_error hread hfault⟩

/-- A schema with metadata, and a type with a field. -/
def carSchema : Json :=
  .obj [("metadata", .obj [("by", .str "me"), ("on", .null)]),
    ("types", .arr [.obj [("name", .str "Car"),
      ("fields", .arr [.obj [("name", .str "seats"), ("type", .str "int")]])]])]

/-- The same schema, with the members in other orders and a further member of the field. -/
def carSchemaRearranged : Json :=
  .obj [("types", .arr [.obj [("name", .str "Car"),
      ("fields", .arr [.obj [("name", .str "seats"), ("since", .arr [.decimal 15 (-1)]),
        ("type", .str "int")]])]]),
    ("metadata", .obj [("on", .null), ("by", .str "me")])]

/-- Settings with a part that settings do not have. -/
def colourSettings : Json := .obj [("depth", .int 1), ("colour", .null)]

/-- A file with these settings. -/
def colourTree : FileTree where
  files := [(["c.json"], Text.encode (colourSettings.render ++ "\n"))]

theorem rearranged_carSchema :
    Relation.ReflTransGen (Rearranged Schema.shape) carSchema.toNode
      carSchemaRearranged.toNode := by
  have hinrange : InRange 15 (-1) := isOutOfRange_eq_false_iff.1 (by decide +kernel)
  have hsince : Node.WellFormed (.arr [.decimal 15 (-1)] true) :=
    .arr (List.forall_mem_singleton.2 (.decimal hinrange))
  -- the metadata, then the schema, then the field
  refine .head (.member [] _ (.permute (by decide) (List.Perm.swap _ _ _))) ?_
  refine .head (.permute (by decide) (List.Perm.swap _ _ _)) ?_
  refine .single (.member [] _ (.item [] [] (.member [_] [] (.item [] [] ?_))))
  exact .insert [_] [_] (by decide) hsince

theorem schemas_lenient_settings_strict_carSchema :
    (∃ s s', Schema.ofOctets (Text.encode (carSchema.render ++ "\n")) = .ok s ∧
      Schema.ofOctets (Text.encode (carSchemaRearranged.render ++ "\t\n")) = .ok s' ∧ s.Same s' ∧
      s.types = [{ name := "Car", fields := [{ name := "seats", type := "int" }] }]) ∧
    ∃ fault : Json.Fault, loadConfig { tree := colourTree } { parts := ["c.json"] } =
      .error (.complaint ("Invalid config c.json: " ++ fault.message "JSON is malformed")) := by
  have hspells : ∀ (v : Json) {tail : String}, Blank tail.toList →
      Spells v.toNode (Text.scan (Text.encode (v.render ++ tail))) :=
    fun v _ h => spells_iff.2 (ofOctets_render v h)
  have hnewline : Blank "\n".toList := by simp [Blank, isSpace]
  have htab : Blank "\t\n".toList := by simp [Blank, isSpace]
  obtain ⟨hschemas, hsettings⟩ := schemas_lenient_settings_strict
  refine ⟨?schemas, ?settings⟩
  case schemas =>
    have hs : Schema.ofOctets (Text.encode (carSchema.render ++ "\n")) =
        .ok { metadata := [("by", .str "me"), ("on", .null)]
              types := [{ name := "Car", fields := [{ name := "seats", type := "int" }] }] } :=
      Schema.ofOctets_eq_ok_iff.2 ⟨carSchema.toNode, hspells _ hnewline, rfl⟩
    obtain ⟨n, hn, hrearranged⟩ := hschemas _ _ hs
    cases hn.unique (hspells _ hnewline)
    obtain ⟨s', hs', hsame⟩ := hrearranged _ _ rearranged_carSchema (hspells _ htab)
    exact ⟨_, s', hs, hs', hsame, rfl⟩
  case settings =>
    have hread : colourTree.read { parts := ["c.json"] } =
        .ok (Text.encode (colourSettings.render ++ "\n")) := eq_ok_of_toOption (by decide +kernel)
    exact hsettings { tree := colourTree } _ _ _ hread (hspells colourSettings hnewline)
      ⟨(some "colour", .null), by simp [toMembers, toNode], by decide⟩

end CommandLine

end TypeAtlas
