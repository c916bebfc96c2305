set_option autoImplicit false

/-! # Reading character by character

A `Reader` hands out the characters of a text one at a time, takes characters back, and counts the
lines. Its view is `unread`, the text that is still to come: `next?` takes its first character away
and `giveBack` puts a character in front. -/

namespace Offside

/-- A position in a text: characters given back, latest first, the rest of the text, and the number
of the current line. -/
structure Reader where
  pushed : List Char
  stream : List Char
  line : Nat
  deriving DecidableEq, Repr, Inhabited

namespace Reader

/-- The start of a text. -/
def ofString (s : String) : Reader := ⟨[], s.toList, 1⟩

/-- The text still to come. -/
def unread (r : Reader) : List Char := r.pushed ++ r.stream

/-- The length of the text still to come. -/
def size (r : Reader) : Nat := r.unread.length

/-- The line after the character `c` on line `line`. -/
def lineAfter (c : Char) (line : Nat) : Nat := if c = '\n' then line + 1 else line

/-- The next character, and the position behind it. -/
def next? : Reader → Option (Char × Reader)
  | ⟨c :: pushed, stream, line⟩ => some (c, ⟨pushed, stream, lineAfter c line⟩)
  | ⟨[], c :: stream, line⟩ => some (c, ⟨[], stream, lineAfter c line⟩)
  | ⟨[], [], _⟩ => none

/-- The position before the character `c`, which was the last one taken. -/
def giveBack (r : Reader) (c : Char) : Reader :=
  ⟨c :: r.pushed, r.stream, if c = '\n' then r.line - 1 else r.line⟩

@[simp] theorem unread_giveBack (r : Reader) (c : Char) :
    (r.giveBack c).unread = c :: r.unread := rfl

theorem next?_eq_none_iff {r : Reader} : r.next? = none ↔ r.unread = [] := by
  rcases r with ⟨_ | ⟨c, pushed⟩, _ | ⟨d, stream⟩, line⟩ <;> simp [next?, unread]

theorem unread_of_next? {r r' : Reader} {c : Char} (h : r.next? = some (c, r')) :
    r.unread = c :: r'.unread := by
  rcases r with ⟨_ | ⟨d, pushed⟩, _ | ⟨e, stream⟩, line⟩ <;> simp [next?] at h <;>
    obtain ⟨rfl, rfl⟩ := h <;> rfl

theorem line_of_next? {r r' : Reader} {c : Char} (h : r.next? = some (c, r')) :
    r'.line = lineAfter c r.line := by
  rcases r with ⟨_ | ⟨d, pushed⟩, _ | ⟨e, stream⟩, line⟩ <;> simp [next?] at h <;>
    obtain ⟨rfl, rfl⟩ := h <;> rfl

theorem size_of_next? {r r' : Reader} {c : Char} (h : r.next? = some (c, r')) :
    r.size = r'.size + 1 := by
  simp [size, unread_of_next? h]

@[simp] theorem size_giveBack (r : Reader) (c : Char) : (r.giveBack c).size = r.size + 1 := rfl

/-- Giving back what was just taken restores the text still to come and the line. -/
theorem giveBack_of_next? {r r' : Reader} {c : Char} (h : r.next? = some (c, r')) :
    (r'.giveBack c).unread = r.unread ∧ (r'.giveBack c).line = r.line := by
  refine ⟨by rw [unread_giveBack, unread_of_next? h], ?_⟩
  by_cases hc : c = '\n' <;> simp [giveBack, line_of_next? h, lineAfter, hc]

end Reader

end Offside
