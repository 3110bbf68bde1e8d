/-!
# Octets as characters

A file is a list of octets. Reading it as UTF-8 gives a list in which every well-formed sequence is
its character and every octet outside such a sequence is a gap, so that a reader can go on past a
fault and tell later whether the fault lies in what it needs.

Main statements: `scan_encode_append` says that encoded characters are read back, and
`decode?_eq_some_iff` and `exists_decode?_iff` say which files are texts.
-/

namespace TypeAtlas

/-- The contents of a file. -/
abbrev Octets := List UInt8

namespace Text

/-- The character whose UTF-8 sequence begins the list, if there is one. Overlong forms,
    surrogates and values past the last code point begin none. -/
def headChar? (bs : Octets) : Option Char :=
  (bs.take 4).toByteArray.utf8DecodeChar? 0

/-- Read octets as characters, the first `skip` of them being the rest of a sequence already
    read. A gap stands for one octet outside every sequence. -/
def scanFrom : Nat → Octets → List (Option Char)
  | _, [] => []
  | skip + 1, _ :: bs => scanFrom skip bs
  | 0, b :: bs =>
    match headChar? (b :: bs) with
    | some c => some c :: scanFrom (c.utf8Size - 1) bs
    | none => none :: scanFrom 0 bs

/-- Read octets as characters and gaps. -/
def scan (bs : Octets) : List (Option Char) := scanFrom 0 bs

/-- The characters of a list without gaps. -/
def ungapped? : List (Option Char) → Option (List Char)
  | [] => some []
  | some c :: cs => (ungapped? cs).map (c :: ·)
  | none :: _ => none

/-- The text of a well-formed UTF-8 file. -/
def decode? (bs : Octets) : Option String := (ungapped? (scan bs)).map String.ofList

/-- The octets of a text. -/
def encode (s : String) : Octets := s.toList.flatMap String.utf8EncodeChar

@[simp] theorem ungapped?_map_some (cs : List Char) : ungapped? (cs.map some) = some cs := by
  induction cs with
  | nil => rfl
  | cons c cs ih => simp [ungapped?, ih]

private theorem scanFrom_append (xs bs : Octets) :
    scanFrom xs.length (xs ++ bs) = scanFrom 0 bs := by
  induction xs with
  | nil => rfl
  | cons x xs ih => simpa [scanFrom] using ih

/-- The sequence of a character is read back as that character. -/
theorem scan_utf8EncodeChar_append (c : Char) (bs : Octets) :
    scan (String.utf8EncodeChar c ++ bs) = some c :: scan bs := by
  have hlen : (String.utf8EncodeChar c).length = c.utf8Size := String.length_utf8EncodeChar c
  have hpos : 0 < c.utf8Size := Char.utf8Size_pos c
  have hle : c.utf8Size ≤ 4 := Char.utf8Size_le_four c
  cases he : String.utf8EncodeChar c with
  | nil => rw [he] at hlen; simp at hlen; omega
  | cons b rest =>
    -- no sequence is longer than the four octets that are looked at
    have hhead : headChar? (String.utf8EncodeChar c ++ bs) = some c := by
      have htake : (String.utf8EncodeChar c ++ bs).take 4 =
          String.utf8EncodeChar c ++ bs.take (4 - c.utf8Size) := by
        rw [List.take_append, hlen, List.take_of_length_le (by omega)]
      rw [headChar?, htake, List.toByteArray_append]
      exact ByteArray.utf8DecodeChar?_utf8EncodeChar_append
    rw [he] at hhead hlen
    simp only [scan, List.cons_append, scanFrom] at hhead ⊢
    rw [hhead]
    have : c.utf8Size - 1 = rest.length := by simp at hlen; omega
    simp only [this, scanFrom_append]

/-- Encoded characters are read back, whatever follows them. -/
theorem scan_encode_append (cs : List Char) (bs : Octets) :
    scan (cs.flatMap String.utf8EncodeChar ++ bs) = cs.map some ++ scan bs := by
  induction cs with
  | nil => rfl
  | cons c cs ih => simp [List.append_assoc, scan_utf8EncodeChar_append, ih]

/-- A text is read back from its octets. -/
@[simp] theorem decode?_encode (s : String) : decode? (encode s) = some s := by
  have h := scan_encode_append s.toList []
  rw [List.append_nil, show scan [] = [] from rfl, List.append_nil] at h
  rw [decode?, encode, h, ungapped?_map_some]
  simp

/-- A character is read only where its sequence begins the list. -/
theorem prefix_of_headChar? {bs : Octets} {c : Char} (h : headChar? bs = some c) :
    String.utf8EncodeChar c <+: bs := by
  obtain ⟨rest, hrest⟩ := ByteArray.exists_of_utf8DecodeChar?_eq_some h
  have hlists := congrArg (fun b => b.data.toList) hrest
  simp only [List.data_toByteArray, ByteArray.data_append, Array.toList_append] at hlists
  exact List.IsPrefix.trans ⟨_, hlists.symm⟩ (List.take_prefix 4 bs)

/-- Octets that are read without a gap are those of the characters read. -/
theorem flatMap_of_ungapped?_scan {bs : Octets} {cs : List Char}
    (h : ungapped? (scan bs) = some cs) : cs.flatMap String.utf8EncodeChar = bs := by
  induction cs generalizing bs with
  | nil =>
    cases bs with
    | nil => rfl
    | cons b rest =>
      simp only [scan, scanFrom] at h
      split at h <;> simp [ungapped?] at h
  | cons c cs ih =>
    cases bs with
    | nil => simp [scan, scanFrom, ungapped?] at h
    | cons b rest =>
      cases hhead : headChar? (b :: rest) with
      | none =>
        simp only [scan, scanFrom, hhead] at h
        simp [ungapped?] at h
      | some c' =>
        obtain ⟨after, hafter⟩ := prefix_of_headChar? hhead
        -- the rest is read behind the sequence of the first character
        rw [← hafter, scan_utf8EncodeChar_append, ungapped?, Option.map_eq_some_iff] at h
        obtain ⟨cs', hcs', heq⟩ := h
        cases heq
        rw [List.flatMap_cons, ih hcs', hafter]

/-- A file is a text exactly when it holds the octets of that text. -/
theorem decode?_eq_some_iff {bs : Octets} {s : String} : decode? bs = some s ↔ bs = encode s := by
  constructor
  · intro h
    obtain ⟨cs, hcs, rfl⟩ := Option.map_eq_some_iff.1 h
    rw [encode, String.toList_ofList, flatMap_of_ungapped?_scan hcs]
  · rintro rfl
    exact decode?_encode s

/-- A file is a text exactly when it is well-formed UTF-8. -/
theorem exists_decode?_iff {bs : Octets} :
    (∃ s, decode? bs = some s) ↔ bs.toByteArray.IsValidUTF8 := by
  constructor
  · rintro ⟨s, hs⟩
    rw [decode?_eq_some_iff.1 hs]
    exact ⟨s.toList, rfl⟩
  · rintro ⟨cs, hcs⟩
    have hlists := congrArg (fun b => b.data.toList) hcs
    refine ⟨String.ofList cs, decode?_eq_some_iff.2 ?_⟩
    simpa [encode, List.utf8Encode] using hlists

end Text

end TypeAtlas
