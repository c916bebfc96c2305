import Offside.Text.Decimal
import Offside.Text.Quoted
import Offside.Token.Basic

set_option autoImplicit false

/-! # Lexical errors

Why a text has no next token, and on which line this was found. A read may also fail without an error
of the text, because a number has more digits than can be read or written. -/

namespace Offside

/-- Why no token could be read. -/
inductive LexicalCause
  /-- A tab in the indentation of a line. -/
  | tabInIndentation
  /-- A line of `spaces` spaces, an odd number away from the depth of the lines before it. -/
  | unevenIndentation (spaces depth : Nat)
  /-- A string literal that ends with its line or with the input. -/
  | unterminatedString
  /-- A backslash before a character that it does not change. -/
  | unknownEscape (c : Char)
  /-- A word that stands for nothing. -/
  | badWord (word : String)
  /-- A token other than the one asked for. -/
  | unexpected (wanted : Expectation) (found : Token)
  deriving DecidableEq, Repr, Inhabited

/-- The wording of a cause. -/
def LexicalCause.text : LexicalCause → String
  | tabInIndentation => "bad indent: tabs are not allowed"
  | unevenIndentation spaces depth => s!"bad indent: {spaces} spaces at depth {depth}"
  | unterminatedString => "unterminated string literal"
  | unknownEscape c => "unknown escape sequence \\" ++ c.toString
  | badWord word => s!"bad identifier {Text.quote word}"
  | unexpected wanted found => s!"expected {wanted.text}, got {found.text}"

/-- A cause and the line at which it was found. -/
structure LexicalError where
  cause : LexicalCause
  line : Nat
  deriving DecidableEq, Repr, Inhabited

/-- The message of a lexical error. -/
def LexicalError.message (e : LexicalError) : String :=
  s!"{e.cause.text} (line {e.line})"

/-- Why a read fails: for an error `ε` of the text, or for the digits of a number. -/
inductive ReadFault (ε : Type)
  | lexical (e : ε)
  | digits (f : Text.DigitFault)
  deriving DecidableEq, Repr, Inhabited

/-- What a read fails with. Only errors of the text have a line. -/
abbrev ReadError := ReadFault LexicalError

/-- A fault that was found on a line. -/
def ReadFault.onLine (line : Nat) : ReadFault LexicalCause → ReadError
  | lexical cause => lexical ⟨cause, line⟩
  | digits f => digits f

end Offside
