import Mathlib.Algebra.Ring.Nat
import Offside.Token.Spelling

set_option autoImplicit false

/-! # Numerals and their values

A numeral of `k` digits is less than `10 ^ k`, zeros in front included. So the value of a numeral
that is short enough to be read is small enough to be written, and a word with too many digits stands
for nothing. -/

namespace Offside

namespace Text

theorem isWritable_iff {n : Nat} : isWritable n = true ↔ n < 10 ^ maxDigits := by
  rw [isWritable, decide_eq_true_eq]
  exact Nat.length_toDigits_le_iff (by decide) (by decide)

/-- The value of a row of digits, read behind the digits of `init`. -/
theorem ofDigitChars_lt {digits : List Char} (h : digits.all Char.isDigit = true) (init : Nat) :
    Nat.ofDigitChars 10 digits init < 10 ^ digits.length * (init + 1) := by
  induction digits generalizing init with
  | nil => simp [Nat.ofDigitChars_nil]
  | cons c digits ih =>
    simp only [List.all_cons, Bool.and_eq_true] at h
    have hd : c.toNat - '0'.toNat < 10 := by
      have hc := (Char.isDigit_iff_toNat.1 h.1).2
      have hnine : '9'.toNat - '0'.toNat = 9 := rfl
      omega
    calc
      Nat.ofDigitChars 10 (c :: digits) init
        < 10 ^ digits.length * (10 * init + (c.toNat - '0'.toNat) + 1) := by
          rw [Nat.ofDigitChars_cons]; exact ih h.2 _
      _ ≤ 10 ^ digits.length * (10 * (init + 1)) := Nat.mul_le_mul_left _ (by omega)
      _ = 10 ^ (c :: digits).length * (init + 1) := by
          rw [List.length_cons, Nat.pow_succ, Nat.mul_assoc]

/-- What was read can be written. -/
theorem isWritable_ofDigitChars {digits : List Char} (h : digits.all Char.isDigit = true)
    (hlength : digits.length ≤ maxDigits) : isWritable (Nat.ofDigitChars 10 digits 0) = true :=
  isWritable_iff.2 <| calc
    Nat.ofDigitChars 10 digits 0 < 10 ^ digits.length := by simpa using ofDigitChars_lt h 0
    _ ≤ 10 ^ maxDigits := Nat.pow_le_pow_right (by decide) hlength

end Text

namespace Token

variable {word : String}

/-- What a word stands for does not have too many digits. -/
theorem isShort_of_ofWord? {t : Token} (h : ofWord? word = some t) : t.isShort = true := by
  rw [isShort_iff]
  rintro n rfl
  unfold ofWord? at h
  split at h
  · simp at h
  · split at h
    · rename_i hnumeral
      split at h
      · rename_i hlength
        obtain rfl := Token.number.inj (Option.some.inj h)
        simp only [isNumeral, Bool.and_eq_true] at hnumeral
        exact Text.isWritable_ofDigitChars hnumeral.2 (by rwa [String.length_toList])
      · simp at h
    · simp at h

/-- A row of ones that is one longer than numerals may be. -/
theorem isNumeral_replicate_one :
    isNumeral (List.replicate 4301 '1') = true ∧
      Text.maxDigits < (List.replicate 4301 '1').length := by
  have hdigit : '1'.isDigit = true := by decide
  constructor
  · rw [isNumeral, List.all_replicate, hdigit]
    rfl
  · rw [List.length_replicate]
    decide

/-- Nothing but digits stands in a numeral. -/
theorem notMem_of_isNumeral {word : List Char} (h : isNumeral word = true) {c : Char}
    (hc : c.isDigit = false) : c ∉ word := by
  simp only [isNumeral, Bool.and_eq_true, List.all_eq_true] at h
  intro hmem
  simp [h.2 c hmem] at hc

theorem faultOf_eq_digits_iff {f : Text.DigitFault} :
    faultOf word = .digits f ↔ isNumeral word.toList = true ∧ f = .reading word.length := by
  unfold faultOf
  split
  · rename_i h
    simp [h, eq_comm]
  · rename_i h
    simp [h]

end Token

end Offside
