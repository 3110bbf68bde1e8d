import TypeAtlas.Proofs.Json.Abridgement
import TypeAtlas.Schema.Reading
import TypeAtlas.Schema.Writing

/-!
# Written schemas are read back

A schema may be written out in full, or shorter: at every level, any of the parts that have their
default values may be left out. Each of these forms is read as the schema that was written. The
forms of each description and what is read of them stand together; the descriptions nest as the
format does.

Main statement: `Schema.ofOctets_written`.
-/

namespace TypeAtlas.Schema

open Json

/-! ## §1 Fields -/

/-- The parts of a written field. -/
def FieldDecl.parts (f : FieldDecl) : List Part :=
  [.exact "name" False (.str f.name), .exact "type" False (.str f.type),
    .exact "modifiers" (f.modifiers = []) (strs f.modifiers)]

/-- Whether a value writes a field. -/
def FieldDecl.Written (f : FieldDecl) : Json → Prop := WritesObject f.parts

theorem FieldDecl.written_toJson (f : FieldDecl) : f.Written f.toJson :=
  ⟨_, rfl, .exact (.exact (.exact .nil))⟩

theorem readField_toNode {f : FieldDecl} {v : Json} (h : f.Written v) (path : Path) :
    readField path v.toNode = .ok f := by
  refine object_toNode h ?_ (s := ⟨some f.name, some f.type, f.modifiers⟩) rfl
  refine .exact (fun _ => rfl) (text_toNode _) nofun ?_
  refine .exact (fun _ => rfl) (text_toNode _) nofun ?_
  exact .exact (fun _ => rfl) (list_text_toNode _) (fun h => by rw [h]) .nil

/-! ## §2 Methods and constructors -/

/-- The parts of a written method. -/
def MethodDecl.parts (m : MethodDecl) : List Part :=
  [.exact "name" False (.str m.name), .exact "returns" (m.returns = "void") (.str m.returns),
    .exact "params" (m.params = []) (strs m.params),
    .exact "throws" (m.throws = []) (strs m.throws),
    .exact "modifiers" (m.modifiers = []) (strs m.modifiers)]

/-- Whether a value writes a method. -/
def MethodDecl.Written (m : MethodDecl) : Json → Prop := WritesObject m.parts

theorem MethodDecl.written_toJson (m : MethodDecl) : m.Written m.toJson :=
  ⟨_, rfl, .exact (.exact (.exact (.exact (.exact .nil))))⟩

theorem readMethod_toNode {m : MethodDecl} {v : Json} (h : m.Written v) (path : Path) :
    readMethod path v.toNode = .ok m := by
  refine object_toNode h ?_ (s := ⟨some m.name, { m with name := "" }⟩) rfl
  refine .exact (fun _ => rfl) (text_toNode _) nofun ?_
  refine .exact (fun _ => rfl) (text_toNode _) (fun h => by rw [h]) ?_
  refine .exact (fun _ => rfl) (list_text_toNode _) (fun h => by rw [h]) ?_
  refine .exact (fun _ => rfl) (list_text_toNode _) (fun h => by rw [h]) ?_
  exact .exact (fun _ => rfl) (list_text_toNode _) (fun h => by rw [h]) .nil

/-- The parts of a written constructor. -/
def ConstructorDecl.parts (c : ConstructorDecl) : List Part :=
  [.exact "params" (c.params = []) (strs c.params),
    .exact "throws" (c.throws = []) (strs c.throws),
    .exact "modifiers" (c.modifiers = []) (strs c.modifiers)]

/-- Whether a value writes a constructor. -/
def ConstructorDecl.Written (c : ConstructorDecl) : Json → Prop := WritesObject c.parts

theorem ConstructorDecl.written_toJson (c : ConstructorDecl) : c.Written c.toJson :=
  ⟨_, rfl, .exact (.exact (.exact .nil))⟩

theorem readConstructor_toNode {c : ConstructorDecl} {v : Json} (h : c.Written v) (path : Path) :
    readConstructor path v.toNode = .ok c := by
  refine object_toNode h ?_ (s := c) rfl
  refine .exact (fun _ => rfl) (list_text_toNode _) (fun h => by rw [h]) ?_
  refine .exact (fun _ => rfl) (list_text_toNode _) (fun h => by rw [h]) ?_
  exact .exact (fun _ => rfl) (list_text_toNode _) (fun h => by rw [h]) .nil

/-! ## §3 Types -/

/-- The parts of a written type. -/
def TypeDecl.parts (t : TypeDecl) : List Part :=
  [.exact "name" False (.str t.name), .exact "kind" (t.kind = "class") (.str t.kind),
    .exact "modifiers" (t.modifiers = []) (strs t.modifiers),
    .exact "extends" (t.extends? = none) (strOrNull t.extends?),
    .exact "implements" (t.implements = []) (strs t.implements),
    .exact "declaring" (t.declaring = none) (strOrNull t.declaring),
    .exact "enclosing" (t.enclosing = none) (strOrNull t.enclosing),
    .exact "nested" (t.nested = []) (strs t.nested),
    .each "fields" FieldDecl.Written t.fields, .each "methods" MethodDecl.Written t.methods,
    .each "constructors" ConstructorDecl.Written t.constructors]

/-- Whether a value writes a type. -/
def TypeDecl.Written (t : TypeDecl) : Json → Prop := WritesObject t.parts

theorem TypeDecl.written_toJson (t : TypeDecl) : t.Written t.toJson := by
  refine ⟨_, rfl, .exact (.exact (.exact (.exact (.exact (.exact (.exact (.exact ?_)))))))⟩
  exact .each FieldDecl.written_toJson
    (.each MethodDecl.written_toJson (.each ConstructorDecl.written_toJson .nil))

theorem readType_toNode {t : TypeDecl} {v : Json} (h : t.Written v) (path : Path) :
    readType path v.toNode = .ok t := by
  refine object_toNode h ?_ (s := ⟨some t.name, { t with name := "" }⟩) rfl
  refine .exact (fun _ => rfl) (text_toNode _) nofun ?_
  refine .exact (fun _ => rfl) (text_toNode _) (fun h => by rw [h]) ?_
  refine .exact (fun _ => rfl) (list_text_toNode _) (fun h => by rw [h]) ?_
  refine .exact (fun _ => rfl) (textOrNull_toNode _) (fun h => by rw [h]) ?_
  refine .exact (fun _ => rfl) (list_text_toNode _) (fun h => by rw [h]) ?_
  refine .exact (fun _ => rfl) (textOrNull_toNode _) (fun h => by rw [h]) ?_
  refine .exact (fun _ => rfl) (textOrNull_toNode _) (fun h => by rw [h]) ?_
  refine .exact (fun _ => rfl) (list_text_toNode _) (fun h => by rw [h]) ?_
  -- the lists of descriptions are read by the readers of their items
  refine .each (fun _ => rfl) (fun _ _ => readField_toNode) (fun h => by rw [h]) ?_
  refine .each (fun _ => rfl) (fun _ _ => readMethod_toNode) (fun h => by rw [h]) ?_
  exact .each (fun _ => rfl) (fun _ _ => readConstructor_toNode) (fun h => by rw [h]) .nil

/-! ## §4 Schemas -/

/-- The parts of a written schema. -/
def parts (s : Schema) : List Part :=
  [.exact "version" (s.version = "1.0") (.str s.version),
    .exact "metadata" (s.metadata = []) (.obj s.metadata),
    .exact "primitives" (s.primitives = []) (strs s.primitives),
    .each "types" TypeDecl.Written s.types]

/-- Whether a value writes a schema. -/
def Written (s : Schema) : Json → Prop := WritesObject s.parts

theorem written_toJson (s : Schema) : s.Written s.toJson :=
  ⟨_, rfl, .exact (.exact (.exact (.each TypeDecl.written_toJson .nil)))⟩

theorem readSchema_toNode {s : Schema} (hmetadata : Plain (.obj s.metadata)) {v : Json}
    (h : s.Written v) (path : Path) : readSchema path v.toNode = .ok s := by
  refine object_toNode h ?_ (s := s) rfl
  refine .exact (fun _ => rfl) (text_toNode _) (fun h => by rw [h]) ?_
  refine .exact (fun _ => rfl) (anyObject_toNode hmetadata) (fun h => by rw [h]) ?_
  refine .exact (fun _ => rfl) (list_text_toNode _) (fun h => by rw [h]) ?_
  exact .each (fun _ => rfl) (fun _ _ => readType_toNode) (fun h => by rw [h]) .nil

/-- A file with a written schema, in full or abridged, holds that schema. -/
theorem ofOctets_written (s : Schema) (hmetadata : Plain (.obj s.metadata)) {tail : String}
    (htail : Blank tail.toList) :
    ofOctets (Text.encode (s.render ++ tail)) = .ok s ∧
      ∀ v, s.Written v → ofOctets (Text.encode (v.render ++ tail)) = .ok s := by
  have hread : ∀ v, s.Written v → ofOctets (Text.encode (v.render ++ tail)) = .ok s := by
    intro v hv
    rw [ofOctets, ofOctets_render v htail, Document.read, readSchema_toNode hmetadata hv]
    rfl
  exact ⟨hread _ s.written_toJson, hread⟩

/-- A schema with names that have to be escaped, with nested metadata, and with parts of each
    kind. -/
def oddlyWritten : Schema :=
  { metadata :=
      [("a\"\\\n\u0001é🦀", .arr [.null, .int (-9223372036854775808), .obj [("", .bool true)]])]
    primitives := ["\x7f"]
    types :=
      [{ name := "p.Car\t"
         extends? := some ""
         fields := [{ name := "", type := "€" }]
         methods := [{ name := "stop", throws := ["E\r"] }, { name := "go", returns := "" }]
         constructors := [{}] }] }

/-- A form of it in which some of the defaults stand and others do not. -/
def oddlyWrittenForm : Json :=
  .obj [("version", .str "1.0"), ("metadata", .obj oddlyWritten.metadata),
    ("primitives", strs ["\x7f"]),
    ("types", .arr [.obj [("name", .str "p.Car\t"), ("extends", .str ""), ("declaring", .null),
      ("fields", .arr [.obj [("name", .str ""), ("type", .str "€"), ("modifiers", .arr [])]]),
      ("methods", .arr [.obj [("name", .str "stop"), ("throws", strs ["E\r"])],
        .obj [("name", .str "go"), ("returns", .str ""), ("params", .arr [])]]),
      ("constructors", .arr [.obj []])]])]

theorem written_oddlyWrittenForm : oddlyWritten.Written oddlyWrittenForm := by
  have hfield : FieldDecl.Written { name := "", type := "€" }
      (.obj [("name", .str ""), ("type", .str "€"), ("modifiers", .arr [])]) :=
    ⟨_, rfl, .exact (.exact (.exact .nil))⟩
  have hstop : MethodDecl.Written { name := "stop", throws := ["E\r"] }
      (.obj [("name", .str "stop"), ("throws", strs ["E\r"])]) :=
    ⟨_, rfl, .exact (.leave rfl (.leave rfl (.exact (.leave rfl .nil))))⟩
  have hgo : MethodDecl.Written { name := "go", returns := "" }
      (.obj [("name", .str "go"), ("returns", .str ""), ("params", .arr [])]) :=
    ⟨_, rfl, .exact (.exact (.exact (.leave rfl (.leave rfl .nil))))⟩
  have hconstructor : ConstructorDecl.Written {} (.obj []) :=
    ⟨_, rfl, .leave rfl (.leave rfl (.leave rfl .nil))⟩
  refine ⟨_, rfl, .exact (.exact (.exact (.write ⟨_, rfl, .cons ⟨_, rfl, ?_⟩ .nil⟩ .nil)))⟩
  refine .exact (.leave rfl (.leave rfl (.exact (.leave rfl (.exact (.leave rfl
    (.leave rfl ?_)))))))
  refine .write ⟨_, rfl, .cons hfield .nil⟩ (.write ⟨_, rfl, .cons hstop (.cons hgo .nil)⟩ ?_)
  exact .write ⟨_, rfl, .cons hconstructor .nil⟩ .nil

theorem plain_oddlyWritten : Plain (.obj oddlyWritten.metadata) := by
  have hinner : Plain (.obj [("", .bool true)]) := .obj (by simp) (by simp [Plain.bool])
  have houter : Plain (.arr [.null, .int (-9223372036854775808), .obj [("", .bool true)]]) :=
    .arr (by simp [Plain.null, Plain.int, hinner])
  exact .obj (by simp [oddlyWritten]) (by simp [oddlyWritten, houter])

theorem ofOctets_written_oddlyWritten :
    Plain (.obj oddlyWritten.metadata) ∧ Blank "\n".toList ∧
      oddlyWritten.Written oddlyWrittenForm ∧
      ofOctets (Text.encode (oddlyWritten.render ++ "\n")) = .ok oddlyWritten ∧
      ofOctets (Text.encode (oddlyWrittenForm.render ++ "\n")) = .ok oddlyWritten := by
  have hblank : Blank "\n".toList := by simp [Blank, isSpace]
  obtain ⟨hfull, hforms⟩ := ofOctets_written oddlyWritten plain_oddlyWritten hblank
  exact ⟨plain_oddlyWritten, hblank, written_oddlyWrittenForm, hfull,
    hforms _ written_oddlyWrittenForm⟩

end TypeAtlas.Schema
