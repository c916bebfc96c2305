import Offside.Token.Word

set_option autoImplicit false

/-! # How tokens are written

The tokens that stand on a line are the content of a source; the others mark its lines and blocks.
Each content token has a spelling: a numeral is written in decimal, and a literal between double
quotes. -/

namespace Offside.Token

/-- Whether a token stands on a line. A name must have the form of one and not be reserved, and a
character must be punctuation. -/
def isContent : Token → Bool
  | number _ | string _ | keyword _ | paired _ => true
  | name word => isName word.toList && (Keyword.ofSpelling? word).isNone
  | char c => punctuation.contains c
  | newline | indent | dedent | endOfInput => false

/-- Whether a token is no number with too many digits. -/
def isShort : Token → Bool
  | number value => Text.isWritable value
  | _ => true

theorem isShort_iff {t : Token} :
    t.isShort = true ↔ ∀ n, t = number n → Text.isWritable n = true := by
  cases t <;> simp [isShort]

/-- What stands on a line marks neither lines nor blocks, nor the end. -/
theorem not_mark_of_isContent {t : Token} (h : t.isContent = true) :
    t.isLayout = false ∧ t ≠ .endOfInput := by
  cases t with
  | newline | indent | dedent | endOfInput => simp [isContent] at h
  | _ => exact ⟨rfl, by simp⟩

/-- What a word stands for is content. -/
theorem isContent_of_ofWord? {word : String} {t : Token} (h : ofWord? word = some t) :
    t.isContent = true := by
  unfold ofWord? at h
  split at h
  · obtain rfl := Option.some.inj h
    rfl
  · rename_i hk
    split at h
    · split at h
      · obtain rfl := Option.some.inj h
        rfl
      · simp at h
    · split at h
      · rename_i hn
        obtain rfl := Option.some.inj h
        simp [isContent, hn, hk]
      · simp at h

/-- A character as it is written in a literal. -/
def escape (c : Char) : List Char :=
  if c = '\\' then ['\\', '\\']
  else if c = '"' then ['\\', '"']
  else if c = '\n' then ['\\', 'n']
  else [c]

/-- How a content token is written. -/
def spelling : Token → List Char
  | number value => Nat.toDigits 10 value
  | name word => word.toList
  | char c => [c]
  | string text => '"' :: text.toList.flatMap escape ++ ['"']
  | keyword word => word.spelling.toList
  | paired sign => [sign.first, '=']
  | newline | indent | dedent | endOfInput => []

/-- Tokens written one behind the other, with a space in between. -/
def spellings (ts : List Token) : List Char := [' '].intercalate (ts.map spelling)

end Offside.Token
