import Offside.Text.Whitespace
import Offside.Token.Error

set_option autoImplicit false

/-! # Words

A word is a run of characters up to white space, punctuation, a quote or a comment. It stands for a
reserved word, a numeral of decimal digits, or a name of ASCII letters, digits and underscores that
does not begin with a digit; any other word stands for nothing. A numeral with too many digits stands
for nothing either, but that is no error of the text. -/

namespace Offside.Token

/-- Whether `c` ends the word before it. -/
def endsWord (c : Char) : Bool :=
  Text.isWhitespace c || punctuation.contains c || c = '#' || c = '\'' || c = '"'

/-- Whether a word is a numeral. -/
def isNumeral (word : List Char) : Bool :=
  !word.isEmpty && word.all Char.isDigit

/-- Whether `c` may stand in a name after its first character. -/
def isNameChar (c : Char) : Bool :=
  c.isAlphanum || c = '_'

/-- Whether a word has the form of a name. -/
def isName : List Char → Bool
  | [] => false
  | c :: rest => (c.isAlpha || c = '_') && rest.all isNameChar

/-- The token that a word stands for. -/
def ofWord? (word : String) : Option Token :=
  match Keyword.ofSpelling? word with
  | some k => some (.keyword k)
  | none =>
    if isNumeral word.toList then
      if word.length ≤ Text.maxDigits then some (.number (Nat.ofDigitChars 10 word.toList 0)) else none
    else if isName word.toList then some (.name word)
    else none

/-- Why a word stands for nothing. -/
def faultOf (word : String) : ReadFault LexicalCause :=
  if isNumeral word.toList then .digits (.reading word.length) else .lexical (.badWord word)

theorem ofWord?_spelling (k : Keyword) : ofWord? k.spelling = some (.keyword k) := by
  simp [ofWord?, Keyword.ofSpelling?_spelling]

end Offside.Token
