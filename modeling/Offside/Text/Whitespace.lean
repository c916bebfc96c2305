set_option autoImplicit false

/-! # White space

The characters that separate words: the Unicode separators, the line and paragraph breaks and the
ASCII information separators. The class is wider than `Char.isWhitespace`, which it contains. -/

namespace Offside.Text

/-- The code points of white space, as inclusive ranges in increasing order. -/
def whitespaceRanges : List (Nat × Nat) :=
  [(0x09, 0x0D), (0x1C, 0x20), (0x85, 0x85), (0xA0, 0xA0), (0x1680, 0x1680), (0x2000, 0x200A),
   (0x2028, 0x2029), (0x202F, 0x202F), (0x205F, 0x205F), (0x3000, 0x3000)]

/-- Whether `c` is white space. -/
def isWhitespace (c : Char) : Bool :=
  whitespaceRanges.any fun (first, last) => first ≤ c.toNat && c.toNat ≤ last

/-- The white space of ASCII text is white space. -/
theorem isWhitespace_of_isWhitespace {c : Char} (h : c.isWhitespace = true) :
    isWhitespace c = true := by
  simp only [Char.isWhitespace, Bool.or_eq_true, decide_eq_true_eq] at h
  rcases h with ((h | h) | h) | h <;> subst h <;> decide

end Offside.Text
