import TypeAtlas.Report.Csv

/-!
# Reading comma-separated values

A reader of tables goes through the text character by character. Outside quotation marks a comma
ends a field, and a line end, which is a carriage return, a line feed or both in this order, ends a
row. A field that begins with a quotation mark goes on to the next quotation mark that is not
doubled, whatever stands between. The reader takes every text: a line without characters is a row
without fields, a quotation mark inside a bare field stands for itself, and what is left at the end
of the text is a field.

Main statement: `Csv.parse_render` says that a written table is read back, provided that no row
consists of one empty field.
-/

namespace TypeAtlas.Csv

/-! ## §1 The reader -/

/-- Where a reader stands. -/
inductive Place where
  /-- Before a row. -/
  | rowStart
  /-- Behind a carriage return that has ended a row. -/
  | returned
  /-- Before a field that is not the first one. -/
  | fieldStart
  /-- In a field without quotation marks. -/
  | bare
  /-- Between quotation marks. -/
  | quoted
  /-- Behind a quotation mark that ends the quotation unless another one follows. -/
  | marked
  deriving Repr, DecidableEq

/-- What a reader knows of the row that it is in. -/
structure Reading where
  /-- Where it stands. -/
  place : Place := .rowStart
  /-- The characters of the field so far. -/
  chars : List Char := []
  /-- The fields before. -/
  fields : Row := []
  deriving Repr, DecidableEq

namespace Reading

/-- The fields of the row if the field that the reader is in ends here. -/
def row (r : Reading) : Row := r.fields ++ [String.ofList r.chars]

/-- Take a character that stands outside quotation marks, and give the row that it ends. -/
def outside (r : Reading) (c : Char) : Reading × List Row :=
  if c = ',' then ({ place := .fieldStart, fields := r.row }, [])
  else if c = '\r' then ({ place := .returned }, [r.row])
  else if c = '\n' then ({}, [r.row])
  else ({ r with place := .bare, chars := r.chars ++ [c] }, [])

/-- Take the first character of a field. -/
def opening (r : Reading) (c : Char) : Reading × List Row :=
  if c = '"' then ({ r with place := .quoted }, []) else r.outside c

/-- Take the first character of a line. A line end makes a row without fields. -/
def lineStart (r : Reading) (c : Char) : Reading × List Row :=
  if c = '\r' then ({ place := .returned }, [[]])
  else if c = '\n' then ({}, [[]])
  else r.opening c

/-- Take a character, and give the row that it ends. -/
def next (r : Reading) (c : Char) : Reading × List Row :=
  match r.place with
  | .rowStart => r.lineStart c
  | .returned => if c = '\n' then ({}, []) else r.lineStart c
  | .fieldStart => r.opening c
  | .bare => r.outside c
  | .quoted =>
    if c = '"' then ({ r with place := .marked }, []) else ({ r with chars := r.chars ++ [c] }, [])
  | .marked =>
    if c = '"' then ({ r with place := .quoted, chars := r.chars ++ [c] }, []) else r.outside c

/-- The row that the end of the text ends. -/
def last (r : Reading) : List Row :=
  match r.place with
  | .rowStart | .returned => []
  | _ => [r.row]

/-- The rows of a text, from the row on that the reader is in. -/
def rows (r : Reading) : List Char → List Row
  | [] => r.last
  | c :: cs => (r.next c).2 ++ (r.next c).1.rows cs

end Reading

/-- The table that a text holds. -/
def parse (s : String) : List Row := ({} : Reading).rows s.toList

/-! ## §2 Fields -/

namespace Reading

/-- Whether a comma or a line end behind the reader ends the field that it is in. -/
def EndsField (r : Reading) : Prop := ∀ c, c ≠ '"' → r.next c = r.outside c

theorem EndsField.rows_cons {r : Reading} (hr : r.EndsField) {c : Char} (hc : c ≠ '"')
    (rest : List Char) : r.rows (c :: rest) = (r.outside c).2 ++ (r.outside c).1.rows rest := by
  rw [rows, hr c hc]

theorem rows_quoted (done cs rest : List Char) (fields : Row) :
    rows ⟨.quoted, done, fields⟩ (cs.flatMap double ++ '"' :: rest) =
      rows ⟨.marked, done ++ cs, fields⟩ rest := by
  induction cs generalizing done with
  | nil => simp [rows, next]
  | cons c cs ih =>
    by_cases hc : c = '"'
    · -- the first of two marks is taken for the end, and the second one puts that right
      simp [hc, double, rows, next, ih]
    · simp [hc, double, rows, next, ih]

theorem rows_bare (done cs rest : List Char) (fields : Row)
    (hcs : ∀ c ∈ cs, isSpecial c = false) :
    rows ⟨.bare, done, fields⟩ (cs ++ rest) = rows ⟨.bare, done ++ cs, fields⟩ rest := by
  induction cs generalizing done with
  | nil => simp
  | cons c cs ih =>
    have hc : ((c ≠ ',' ∧ c ≠ '"') ∧ c ≠ '\r') ∧ c ≠ '\n' := by
      simpa [isSpecial] using hcs c (by simp)
    have hrest := ih (done ++ [c]) fun d hd => hcs d (by simp [hd])
    simp [rows, next, outside, hc, hrest]

/-- Behind a written field the reader has its text and expects its end. -/
theorem exists_rows_field (s : String) (fields : Row) :
    ∃ place, EndsField ⟨place, s.toList, fields⟩ ∧ ∀ rest,
      rows ⟨.fieldStart, [], fields⟩ (field s ++ rest) = rows ⟨place, s.toList, fields⟩ rest := by
  by_cases hs : s.toList.any isSpecial = true
  · refine ⟨.marked, fun c hc => by simp [next, hc], fun rest => ?_⟩
    simp only [field, if_pos hs, List.cons_append, List.append_assoc, List.nil_append]
    simpa [rows, next, opening] using rows_quoted [] s.toList rest fields
  · have hplain : ∀ c ∈ s.toList, isSpecial c = false := by simpa using hs
    simp only [field, if_neg hs]
    cases hcs : s.toList with
    | nil => exact ⟨.fieldStart, fun c hc => by simp [next, opening, hc], fun rest => rfl⟩
    | cons c cs =>
      rw [hcs] at hplain
      have hc : ((c ≠ ',' ∧ c ≠ '"') ∧ c ≠ '\r') ∧ c ≠ '\n' := by
        simpa [isSpecial] using hplain c (by simp)
      refine ⟨.bare, fun c _ => rfl, fun rest => ?_⟩
      have hrest := rows_bare [c] cs rest fields fun d hd => hplain d (by simp [hd])
      simpa [rows, next, opening, outside, hc] using hrest

/-! ## §3 Rows -/

theorem rows_row (s : String) (fs : List String) (done : Row) (rest : List Char) :
    rows ⟨.fieldStart, [], done⟩ (Csv.row (s :: fs) ++ rest) =
      (done ++ s :: fs) :: rows {} rest := by
  obtain ⟨place, hends, hfield⟩ := exists_rows_field s done
  induction fs generalizing s done place with
  | nil =>
    have hrow : Csv.row [s] ++ rest = field s ++ '\r' :: '\n' :: rest := by
      simp [Csv.row, List.intercalate]
    rw [hrow, hfield, hends.rows_cons (by decide)]
    simp [outside, Reading.row, rows, next]
  | cons f fs ih =>
    obtain ⟨place', hends', hfield'⟩ := exists_rows_field f (done ++ [s])
    have hrest := ih f (done ++ [s]) place' hends' hfield'
    have hrow : Csv.row (s :: f :: fs) = field s ++ ',' :: Csv.row (f :: fs) := by
      simp [Csv.row, List.intercalate]
    rw [hrow, List.append_assoc, hfield, List.cons_append, hends.rows_cons (by decide)]
    simpa [outside, Reading.row] using hrest

end Reading

/-- A row begins with no line end, unless it has no text at all. -/
theorem exists_row_eq_cons {s : String} {fs : List String} (h : s :: fs ≠ [""]) :
    ∃ c cs, Csv.row (s :: fs) = c :: cs ∧ c ≠ '\r' ∧ c ≠ '\n' := by
  have hrow : ∃ c cs, Csv.row (s :: fs) = field s ++ c :: cs ∧ (s = "" → c = ',') := by
    cases fs with
    | nil =>
      refine ⟨'\r', ['\n'], by simp [Csv.row, List.intercalate], ?_⟩
      rintro rfl
      exact absurd rfl h
    | cons f fs => exact ⟨',', Csv.row (f :: fs), by simp [Csv.row, List.intercalate], fun _ => rfl⟩
  obtain ⟨c, cs, hrow, hcomma⟩ := hrow
  rw [hrow]
  -- a field begins with a quotation mark, with its first character, or with what follows it
  by_cases hs : s.toList.any isSpecial = true
  · exact ⟨'"', _, by rw [field, if_pos hs]; rfl, by decide, by decide⟩
  · have hplain : ∀ c ∈ s.toList, isSpecial c = false := by simpa using hs
    rw [field, if_neg hs]
    cases hcs : s.toList with
    | nil =>
      have hempty : s = "" := String.toList_eq_nil_iff.1 hcs
      exact ⟨c, cs, rfl, by simp [hcomma hempty], by simp [hcomma hempty]⟩
    | cons d ds =>
      have hd : ((d ≠ ',' ∧ d ≠ '"') ∧ d ≠ '\r') ∧ d ≠ '\n' := by
        simpa [isSpecial] using hplain d (by simp [hcs])
      exact ⟨d, _, rfl, hd.1.2, hd.2⟩

theorem rows_row_append {fs : Row} (h : fs ≠ [""]) (rest : List Char) :
    ({} : Reading).rows (row fs ++ rest) = fs :: ({} : Reading).rows rest := by
  cases fs with
  | nil => simp [row, List.intercalate, Reading.rows, Reading.next, Reading.lineStart]
  | cons s fs =>
    have hrow := Reading.rows_row s fs [] rest
    obtain ⟨c, cs, hcons, hreturn, hfeed⟩ := exists_row_eq_cons h
    -- what does not begin with a line end is read like a later field
    rw [hcons] at hrow ⊢
    simpa [Reading.rows, Reading.next, Reading.lineStart, Reading.opening, Reading.outside,
      Reading.row, hreturn, hfeed] using hrow

/-! ## §4 Tables -/

theorem parse_render {rows : List Row} (h : ∀ fs ∈ rows, fs ≠ [""]) :
    parse (render rows) = rows := by
  unfold parse render
  rw [String.toList_ofList]
  induction rows with
  | nil => rfl
  | cons fs rows ih =>
    rw [List.flatMap_cons, rows_row_append (h fs (by simp))]
    rw [ih fun fs' hfs' => h fs' (by simp [hfs'])]

/-- Different tables have different texts. -/
theorem render_inj {rows rows' : List Row} (h : ∀ fs ∈ rows, fs ≠ [""])
    (h' : ∀ fs ∈ rows', fs ≠ [""]) : render rows = render rows' ↔ rows = rows' := by
  refine ⟨fun heq => ?_, congrArg render⟩
  rw [← parse_render h, heq, parse_render h']

example : parse "a,\"b\"\"\r\n\",\r\n\r,x" = [["a", "b\"\r\n", ""], [], ["", "x"]] := by decide

end TypeAtlas.Csv
