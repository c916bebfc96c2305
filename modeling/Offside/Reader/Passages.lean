import Offside.Reader.Basic
import Offside.Token.Error
import Offside.Token.Word

set_option autoImplicit false

/-! # Reading passages

The passages of a text that are read as a whole: the blanks before a token, a comment, the leading
space of a line, a string literal and a word. Each is a loop over `Reader.next?`, and each leaves no
more text than it found. -/

namespace Offside.Reader

/-! ## Blanks and comments -/

/-- Whether `c` separates tokens without meaning anything. -/
def isBlank (c : Char) : Bool :=
  c = ' ' || c = '\t' || c = '\r'

/-- The first character that is no blank is taken. -/
def nextVisible? (r : Reader) : Option Char × Reader :=
  match _h : r.next? with
  | none => (none, r)
  | some (c, r') => if isBlank c then r'.nextVisible? else (some c, r')
termination_by r.size
decreasing_by simp [size_of_next? _h]

/-- The rest of the line is passed over; the line break stays. -/
def skipComment (r : Reader) : Reader :=
  match _h : r.next? with
  | none => r
  | some (c, r') => if c = '\n' then r'.giveBack c else r'.skipComment
termination_by r.size
decreasing_by simp [size_of_next? _h]

theorem size_lt_of_nextVisible? {r r' : Reader} {c : Char}
    (h : r.nextVisible? = (some c, r')) : r'.size < r.size := by
  fun_induction nextVisible? r with
  | case1 r h' => simp at h
  | case2 r d r₁ h' _ ih => have := ih h; rw [size_of_next? h']; omega
  | case3 r d r₁ h' _ =>
    obtain ⟨-, rfl⟩ := Prod.mk.inj h
    rw [size_of_next? h']; exact Nat.lt_succ_self _

theorem size_skipComment_le (r : Reader) : r.skipComment.size ≤ r.size := by
  fun_induction skipComment r with
  | case1 r h => exact Nat.le_refl _
  | case2 r r' h => exact Nat.le_of_eq (by rw [size_of_next? h, size_giveBack])
  | case3 r c r' h _ ih => rw [size_of_next? h]; omega

/-! ## The leading space of a line -/

/-- What the leading space of a line ends with. -/
inductive LeadEnd
  /-- A tab, which is taken. -/
  | tab
  /-- The end of the input. -/
  | endOfInput
  /-- Text, after a number of spaces. -/
  | text (spaces : Nat)
  deriving DecidableEq, Repr, Inhabited

/-- The leading space of the next line with text on it, of which `spaces` spaces are counted already.
Blank lines and lines with only a comment are passed over; carriage returns do not count. -/
def lead (r : Reader) (spaces : Nat) : LeadEnd × Reader :=
  match _h : r.next? with
  | none => (.endOfInput, r)
  | some (c, r') =>
    if c = ' ' then r'.lead (spaces + 1)
    else if c = '\r' then r'.lead spaces
    else if c = '\n' then r'.lead 0
    else if c = '#' then r'.skipComment.lead spaces
    else if c = '\t' then (.tab, r')
    else (.text spaces, r'.giveBack c)
termination_by r.size
decreasing_by
  all_goals
    have := size_of_next? _h
    have := size_skipComment_le r'
    omega

theorem size_lead_le (r : Reader) (spaces : Nat) : (r.lead spaces).2.size ≤ r.size := by
  fun_induction lead r spaces with
  | case1 r spaces h => exact Nat.le_refl _
  | case2 r spaces r' h ih => have := size_of_next? h; omega
  | case3 r spaces r' h _ ih => have := size_of_next? h; omega
  | case4 r spaces r' h _ _ ih => have := size_of_next? h; omega
  | case5 r spaces r' h _ _ _ ih =>
    have := size_of_next? h
    have := size_skipComment_le r'
    omega
  | case6 r spaces r' h => have := size_of_next? h; simp only; omega
  | case7 r spaces c r' h => have := size_of_next? h; simp only [size_giveBack]; omega

/-! ## String literals -/

/-- What a backslash makes of the character after it. -/
def unescape? (c : Char) : Option Char :=
  if c = 'n' then some '\n'
  else if c = 't' then some '\t'
  else if c = 'r' then some '\r'
  else if c = '"' || c = '\\' || c = '\'' then some c
  else none

/-- The rest of a string literal up to the closing mark `mark`, where `text` has been read
already. -/
def quotedText (r : Reader) (mark : Char) (text : String) :
    Except LexicalCause String × Reader :=
  match _h : r.next? with
  | none => (.error .unterminatedString, r)
  | some (c, r₁) =>
    if c = '\n' then (.error .unterminatedString, r₁)
    else if c = mark then (.ok text, r₁)
    else if c = '\\' then
      match _h₁ : r₁.next? with
      | none => (.error .unterminatedString, r₁)
      | some (e, r₂) =>
        match unescape? e with
        | some d => r₂.quotedText mark (text.push d)
        | none => (.error (.unknownEscape e), r₂)
    else r₁.quotedText mark (text.push c)
termination_by r.size
decreasing_by
  · rw [size_of_next? _h, size_of_next? _h₁]; omega
  · rw [size_of_next? _h]; omega

/-! ## Words -/

/-- The rest of a word of which `word` has been read already; the character that ends it stays. -/
def restOfWord (r : Reader) (word : String) : String × Reader :=
  match _h : r.next? with
  | none => (word, r)
  | some (c, r') =>
    if Token.endsWord c then (word, r'.giveBack c) else r'.restOfWord (word.push c)
termination_by r.size
decreasing_by rw [size_of_next? _h]; omega

end Offside.Reader
