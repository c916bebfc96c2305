import Offside.Text.Printable

set_option autoImplicit false

/-! # Quoted text

`quote s` writes `s` between quotes on one line, as names and words appear in messages. Single
quotes are used unless `s` holds a single quote and no double one. The chosen quote and the
backslash are escaped by a backslash, line breaks and tabs by their letters, and every other
unprintable character by its code point in lower-case hexadecimal. -/

namespace Offside.Text

/-- The hexadecimal digits of `n`, filled up with zeros on the left to `width`. -/
def hex (width n : Nat) : List Char :=
  let digits := Nat.toDigits 16 n
  List.replicate (width - digits.length) '0' ++ digits

/-- The quote that surrounds `s`. -/
def quoteMark (s : List Char) : Char :=
  if s.contains '\'' && !s.contains '"' then '"' else '\''

/-- One character as it stands between two marks `mark`. -/
def escape (mark c : Char) : List Char :=
  if c = mark || c = '\\' then ['\\', c]
  else if c = '\n' then ['\\', 'n']
  else if c = '\r' then ['\\', 'r']
  else if c = '\t' then ['\\', 't']
  else if isPrintable c then [c]
  else if c.toNat < 0x100 then '\\' :: 'x' :: hex 2 c.toNat
  else if c.toNat < 0x10000 then '\\' :: 'u' :: hex 4 c.toNat
  else '\\' :: 'U' :: hex 8 c.toNat

/-- The text `s` between quotes. -/
def quote (s : String) : String :=
  let mark := quoteMark s.toList
  String.ofList (mark :: s.toList.flatMap (escape mark) ++ [mark])

/-- Texts between brackets, each quoted: `['A', 'B']`. -/
def quoteList (texts : List String) : String :=
  "[" ++ ", ".intercalate (texts.map quote) ++ "]"

end Offside.Text
