set_option autoImplicit false

/-! # Numbers in text

Numbers are not bounded, but their decimal forms are: a numeral of more than `maxDigits` digits is
not read, zeros in front included, and a number that needs more digits than that is not written. -/

namespace Offside.Text

/-- The most digits that a number has in text. -/
def maxDigits : Nat := 4300

/-- Whether `n` has a decimal form. -/
def isWritable (n : Nat) : Bool :=
  decide ((Nat.toDigits 10 n).length ≤ maxDigits)

/-- What has too many digits. -/
inductive DigitFault
  /-- A numeral of that many digits, which was to be read. -/
  | reading (digits : Nat)
  /-- A number that was to be written. -/
  | writing
  deriving DecidableEq, Repr, Inhabited

end Offside.Text
