import BlockMachine.Text.Utf8
import BlockMachine.Value.Numeral
import Mathlib.Data.Nat.Digits.Defs

/-!
# Spelled integers
The grammar of the texts that an integer is read from, apart from the reader: space bytes, at most
one sign, a run of digits, and then anything that does not go on with a digit.
-/

namespace BlockMachine.Numeral
set_option autoImplicit false

inductive Sign where
  | none
  | plus
  | minus
  deriving DecidableEq

namespace Sign

def bytes : Sign → List UInt8
  | none => []
  | plus => [43]
  | minus => [45]

def apply : Sign → Nat → Int
  | minus, n => -n
  | _, n => n

end Sign

structure Spelling (s : List UInt8) where
  spaces : List UInt8
  sign : Sign
  digits : List UInt8
  rest : List UInt8
  text_eq : s = spaces ++ (sign.bytes ++ (digits ++ rest))
  spaces_space : ∀ b ∈ spaces, isSpaceByte b
  digits_ne_nil : digits ≠ []
  digits_digit : ∀ b ∈ digits, Decimal.isDigitByte b
  rest_stops : ∀ b ∈ rest.head?, ¬ Decimal.isDigitByte b

namespace Spelling

variable {s : List UInt8}

def value (p : Spelling s) : Int :=
  p.sign.apply (Nat.ofDigits 10 (p.digits.reverse.map fun b => b.toNat - 48))

def warning (p : Spelling s) : Option String :=
  if p.rest.all isSpaceByte then Option.none else some (Utf8.decode s)

end Spelling

def InRange (n : Int) : Prop := -0x8000000000000000 ≤ n ∧ n < 0x8000000000000000

instance (n : Int) : Decidable (InRange n) := inferInstanceAs (Decidable (_ ∧ _))

/-- Blanks that are not all space bytes, at most one sign, and a digit. No integer is read from such
a text, because the reader does not pass over the other blanks. -/
structure Veiled (s : List UInt8) where
  blanks : List Char
  sign : Sign
  digit : UInt8
  rest : List UInt8
  text_eq : s = Utf8.encodeChars blanks ++ (sign.bytes ++ digit :: rest)
  blanks_blank : ∀ c ∈ blanks, isBlank c
  other : ∃ c ∈ blanks, ¬ ∀ b ∈ String.utf8EncodeChar c, isSpaceByte b
  digit_digit : Decimal.isDigitByte digit

end BlockMachine.Numeral
