import TypeAtlas.Proofs.Json.Spelling

/-!
# Texts without gaps

A file that is well-formed UTF-8 is read without gaps, and then all strings of its document have a
text, the keys of objects included.

Main statement: `Json.gapless_ofOctets`.
-/

namespace TypeAtlas

namespace Json

/-! ## §1 Input -/

/-- There are no gaps in the input. -/
def Full (cs : Input) : Prop := none ∉ cs

theorem Full.tail {c : Option Char} {cs : Input} (h : Full (c :: cs)) : Full cs :=
  fun hmem => h (.tail _ hmem)

theorem Full.cons {c : Char} {cs : Input} (h : Full cs) : Full (some c :: cs) := by
  intro hmem
  cases hmem with
  | tail _ hmem => exact h hmem

theorem Full.of_append {t rest : Input} (h : Full (t ++ rest)) : Full rest :=
  fun hmem => h (List.mem_append_right _ hmem)

theorem Full.skipSpace {cs : Input} (h : Full cs) : Full (skipSpace cs) := by
  obtain ⟨b, -, hcs⟩ := exists_blank_append_skipSpace cs
  exact Full.of_append (t := chars b) (hcs ▸ h)

theorem Full.of_word? {ws : List Char} {cs rest : Input} (h : Full cs)
    (hrest : word? ws cs = some rest) : Full rest := by
  rw [eq_append_of_word? hrest] at h
  exact h.of_append

theorem Full.drop {cs : Input} (h : Full cs) (n : Nat) : Full (cs.drop n) :=
  fun hmem => h (List.mem_of_mem_drop hmem)

/-- The contents of a string have no more gaps than the input. -/
theorem Full.of_stringRest? {cs : Input} (h : Full cs) {r : Input × Input}
    (hr : stringRest? cs = some r) : Full r.1 ∧ Full r.2 := by
  -- one character more, which is none of the gaps
  have step : ∀ {x? : Option (Input × Input)} {c : Char} {r : Input × Input},
      (∀ {r}, x? = some r → Full r.1 ∧ Full r.2) →
      x?.map (fun r => (some c :: r.1, r.2)) = some r → Full r.1 ∧ Full r.2 := by
    intro x? c r hx hr
    obtain ⟨r', hr', rfl⟩ := Option.map_eq_some_iff.1 hr
    exact ⟨(hx hr').1.cons, (hx hr').2⟩
  fun_induction stringRest? cs generalizing r with
  | case2 rest =>
    cases hr
    exact ⟨List.not_mem_nil, h.tail⟩
  | case6 _ _ _ _ _ _ _ _ _ _ _ _ _ _ _ _ ih => exact step (ih (h.drop 12)) hr
  | case9 _ _ _ _ _ _ _ _ _ ih => exact step (ih (h.drop 6)) hr
  | case10 _ _ _ _ _ ih => exact step (ih (h.drop 2)) hr
  | case14 _ _ _ _ _ _ _ ih => exact step (ih h.tail) hr
  | case15 => exact absurd (List.Mem.head _) h
  | _ => cases hr

/-! ## §2 Nodes -/

mutual

/-- Every string below a node has a text, and so has every key. -/
def Node.Gapless : Node → Prop
  | .str s => s ≠ none
  | .arr nodes _ => GaplessItems nodes
  | .obj ms _ => GaplessMembers ms
  | _ => True

/-- Every string below the items of an array has a text. -/
def GaplessItems : List Node → Prop
  | [] => True
  | node :: nodes => node.Gapless ∧ GaplessItems nodes

/-- Every string below the members of an object has a text, and so has every key. -/
def GaplessMembers : List (Option String × Node) → Prop
  | [] => True
  | (k, node) :: ms => k ≠ none ∧ node.Gapless ∧ GaplessMembers ms

end

theorem Full.contentsText_ne_none {cs : Input} (h : Full cs) : contentsText cs ≠ none := by
  have htext : ∃ ds, Text.ungapped? cs = some ds := by
    induction cs with
    | nil => exact ⟨[], rfl⟩
    | cons c cs ih =>
      cases c with
      | none => exact absurd (List.Mem.head _) h
      | some c =>
        obtain ⟨ds, hds⟩ := ih h.tail
        exact ⟨c :: ds, by simp [Text.ungapped?, hds]⟩
  obtain ⟨ds, hds⟩ := htext
  simp [contentsText, hds]

/-- What is read has the property, and there are no gaps behind it. -/
def ReadsFull {α : Type} (P : α → Prop) (r : α × Option Input) : Prop :=
  P r.1 ∧ ∀ rest, r.2 = some rest → Full rest

theorem gapless_numberNode (negative : Bool) (whole : List Char) (fraction : Option (List Char))
    (exponent : Option Int) : (numberNode negative whole fraction exponent).Gapless := by
  cases fraction <;> cases exponent <;> exact trivial

theorem Full.of_number? {cs : Input} (h : Full cs) {r : Node × Input} (hr : number? cs = some r) :
    r.1.Gapless ∧ Full r.2 := by
  obtain ⟨n, rest⟩ := r
  obtain ⟨t, rfl, -⟩ := exists_append_of_number? hr
  obtain ⟨-, fraction, -, exponent, -, -, rfl⟩ := number?_eq_some_iff.1 hr
  exact ⟨gapless_numberNode _ _ _ _, h.of_append⟩

namespace ReadsFull

variable {α : Type} {P : α → Prop} {a : α}

theorem some {rest : Input} (ha : P a) (hrest : Full rest) : ReadsFull P (a, .some rest) := by
  refine ⟨ha, ?_⟩
  rintro _ ⟨⟩
  exact hrest

theorem none (ha : P a) : ReadsFull P (a, .none) := ⟨ha, nofun⟩

end ReadsFull

theorem Full.scalar {cs : Input} (h : Full cs) : ReadsFull Node.Gapless (scalar cs) := by
  unfold Json.scalar
  split
  case h_1 =>
    split
    case h_1 r hr =>
      obtain ⟨hcontents, hrest⟩ := h.tail.of_stringRest? hr
      exact .some hcontents.contentsText_ne_none hrest
    case h_2 => exact .none trivial
  case h_5 =>
    split
    case h_1 r hr =>
      obtain ⟨hnode, hrest⟩ := h.of_number? hr
      exact .some hnode hrest
    case h_2 => exact .none trivial
  -- the three words
  all_goals
    split
    case h_1 r hr => exact .some trivial (h.tail.of_word? hr)
    case h_2 => exact .none trivial

section

variable {fuel : Nat} {cs : Input} (h : Full cs)

include h

theorem Full.value_succ (hitems : ∀ {cs}, Full cs → ReadsFull GaplessItems (items fuel cs))
    (hmembers : ∀ {cs}, Full cs → ReadsFull GaplessMembers (members fuel cs)) :
    ReadsFull Node.Gapless (value (fuel + 1) cs) := by
  have hcs := h.skipSpace
  -- a list or an object, each of them empty or not, or a scalar
  unfold value
  split
  case h_1 rest heq =>
    rw [heq] at hcs
    have hrest := hcs.tail.skipSpace
    split
    case h_1 rest heq =>
      rw [heq] at hrest
      exact .some trivial hrest.tail
    case h_2 => exact hitems hrest
  case h_2 rest heq =>
    rw [heq] at hcs
    have hrest := hcs.tail.skipSpace
    split
    case h_1 rest heq =>
      rw [heq] at hrest
      exact .some trivial hrest.tail
    case h_2 => exact hmembers hrest
  case h_3 => exact hcs.scalar

theorem Full.items_succ (hvalue : ∀ {cs}, Full cs → ReadsFull Node.Gapless (value fuel cs))
    (hitems : ∀ {cs}, Full cs → ReadsFull GaplessItems (items fuel cs)) :
    ReadsFull GaplessItems (items (fuel + 1) cs) := by
  obtain ⟨hnode, hafter⟩ := hvalue h
  unfold items
  dsimp only
  split
  case h_1 => exact .none ⟨hnode, trivial⟩
  case h_2 rest heq =>
    have hrest := (hafter rest heq).skipSpace
    split
    case h_1 rest heq =>
      rw [heq] at hrest
      exact .some ⟨hnode, trivial⟩ hrest.tail
    case h_2 rest heq =>
      rw [heq] at hrest
      obtain ⟨hnodes, hafter⟩ := hitems hrest.tail
      exact ⟨⟨hnode, hnodes⟩, hafter⟩
    case h_3 => exact .none ⟨hnode, trivial⟩

theorem Full.members_succ (hvalue : ∀ {cs}, Full cs → ReadsFull Node.Gapless (value fuel cs))
    (hmembers : ∀ {cs}, Full cs → ReadsFull GaplessMembers (members fuel cs)) :
    ReadsFull GaplessMembers (members (fuel + 1) cs) := by
  have hcs := h.skipSpace
  -- a key, a colon and a value, and then the end, a comma before more members, or a fault
  unfold members
  split
  case h_2 => exact .none trivial
  case h_1 rest heq =>
    rw [heq] at hcs
    split
    case h_1 => exact .none trivial
    case h_2 k hk =>
      obtain ⟨hkey, hbehind⟩ := hcs.tail.of_stringRest? hk
      have hcolon := hbehind.skipSpace
      split
      case h_2 => exact .none trivial
      case h_1 rest heq =>
        rw [heq] at hcolon
        have hkey := hkey.contentsText_ne_none
        obtain ⟨hnode, hafter⟩ := hvalue hcolon.tail
        dsimp only
        split
        case h_1 => exact .none ⟨hkey, hnode, trivial⟩
        case h_2 rest heq =>
          have hrest := (hafter rest heq).skipSpace
          split
          case h_1 rest heq =>
            rw [heq] at hrest
            exact .some ⟨hkey, hnode, trivial⟩ hrest.tail
          case h_2 rest heq =>
            rw [heq] at hrest
            obtain ⟨hnodes, hafter⟩ := hmembers hrest.tail
            exact ⟨⟨hkey, hnode, hnodes⟩, hafter⟩
          case h_3 => exact .none ⟨hkey, hnode, trivial⟩

end

/-- Each call passes the lack of gaps on to the calls behind it. -/
theorem Full.parts (fuel : Nat) :
    (∀ {cs}, Full cs → ReadsFull Node.Gapless (value fuel cs)) ∧
      (∀ {cs}, Full cs → ReadsFull GaplessItems (items fuel cs)) ∧
      ∀ {cs}, Full cs → ReadsFull GaplessMembers (members fuel cs) := by
  induction fuel with
  | zero => exact ⟨fun _ => .none trivial, fun _ => .none trivial, fun _ => .none trivial⟩
  | succ fuel ih =>
    obtain ⟨hvalue, hitems, hmembers⟩ := ih
    exact ⟨fun h => h.value_succ hitems hmembers, fun h => h.items_succ hvalue hitems,
      fun h => h.members_succ hvalue hmembers⟩

/-! ## §3 Files -/

theorem full_of_ungapped? {cs : Input} {ds : List Char} (h : Text.ungapped? cs = some ds) :
    Full cs := by
  induction cs generalizing ds with
  | nil => exact List.not_mem_nil
  | cons c cs ih =>
    cases c with
    | none => cases h
    | some c =>
      obtain ⟨ds', hds', -⟩ := Option.map_eq_some_iff.1 h
      exact (ih hds').cons

/-- The document of a file that is well-formed UTF-8 has no strings without a text. -/
theorem gapless_ofOctets {bs : Octets} (h : Text.decode? bs ≠ none) :
    (Document.ofOctets bs).root.Gapless := by
  obtain ⟨s, hs⟩ := Option.ne_none_iff_exists'.1 h
  obtain ⟨ds, hds, -⟩ := Option.map_eq_some_iff.1 hs
  exact ((Full.parts _).1 (full_of_ungapped? hds)).1

end Json

end TypeAtlas
