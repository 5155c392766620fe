import BlockMachine.Text.Blank
import BlockMachine.Text.Decimal

/-!
# Numerals
A numeral is a run of digits after optional space bytes and an optional sign. A text that starts
with one splits into its value and the bytes after the last digit.
-/

namespace BlockMachine.Numeral
set_option autoImplicit false

def sign : List UInt8 → Bool × List UInt8
  | 45 :: rest => (true, rest)
  | 43 :: rest => (false, rest)
  | rest => (false, rest)

def signed (negative : Bool) (n : Nat) : Int := if negative then -(n : Int) else n

def value? (negative : Bool) (digits : List UInt8) : Option Int64 :=
  (Decimal.ofDigits? 0x8000000000000000 digits).bind fun n => Decimal.toInt64? (signed negative n)

theorem value?_eq (negative : Bool) (digits : List UInt8) :
    value? negative digits = Decimal.toInt64? (signed negative (Decimal.ofDigits digits)) := by
  rw [value?, Decimal.ofDigits?_eq]
  split
  · rfl
  · rename_i h
    have outside : ¬ (Int64.minValue.toInt ≤ signed negative (Decimal.ofDigits digits) ∧
        signed negative (Decimal.ofDigits digits) ≤ Int64.maxValue.toInt) := by
      have hmin : Int64.minValue.toInt = -0x8000000000000000 := rfl
      have hmax : Int64.maxValue.toInt = 0x7fffffffffffffff := rfl
      rw [hmin, hmax, signed]
      cases negative <;> simp <;> omega
    simp only [Option.bind_none, Decimal.toInt64?, outside, if_false]

/-- All digits of the run count: a run too large for the integer type is no numeral, and it is
not cut short. -/
def split (s : List UInt8) : Option (Int64 × List UInt8) :=
  let (negative, body) := sign (s.dropWhile isSpaceByte)
  let digits := body.takeWhile Decimal.isDigitByte
  if digits.isEmpty then none
  else (value? negative digits).map (·, body.dropWhile Decimal.isDigitByte)

end BlockMachine.Numeral
