/-!
# Decimal integers
The digits of an integer as characters and as bytes, and the number a run of digit bytes means.
-/

namespace BlockMachine.Decimal
set_option autoImplicit false

def ofInt (n : Int) : List Char :=
  if n < 0 then '-' :: Nat.toDigits 10 n.natAbs else Nat.toDigits 10 n.natAbs

def text (n : Int64) : String := String.ofList (ofInt n.toInt)

def isDigitByte (b : UInt8) : Bool := 48 ≤ b && b ≤ 57

def ofDigits (digits : List UInt8) : Nat :=
  digits.foldl (fun n b => 10 * n + (b.toNat - 48)) 0

/-- The number a run of digits means, if it is at most the limit. Reading stops at the digit that
passes the limit, so a long run costs no more than its length. -/
def ofDigits? (limit : Nat) (digits : List UInt8) : Option Nat :=
  digits.foldlM (fun n b =>
    let next := 10 * n + (b.toNat - 48)
    if next ≤ limit then some next else none) 0

theorem le_foldl_digits (digits : List UInt8) (n : Nat) :
    n ≤ digits.foldl (fun n b => 10 * n + (b.toNat - 48)) n := by
  induction digits generalizing n with
  | nil => exact Nat.le_refl n
  | cons b bs ih => exact Nat.le_trans (by omega) (ih (10 * n + (b.toNat - 48)))

theorem ofDigits?_eq (limit : Nat) (digits : List UInt8) :
    ofDigits? limit digits = if ofDigits digits ≤ limit then some (ofDigits digits) else none := by
  suffices h : ∀ n ≤ limit, digits.foldlM (fun n b =>
      let next := 10 * n + (b.toNat - 48)
      if next ≤ limit then some next else none) n =
      if digits.foldl (fun n b => 10 * n + (b.toNat - 48)) n ≤ limit
      then some (digits.foldl (fun n b => 10 * n + (b.toNat - 48)) n) else none from
    h 0 (Nat.zero_le limit)
  induction digits with
  | nil => intro n hn; simp [hn]
  | cons b bs ih =>
    intro n _
    simp only [List.foldlM_cons, List.foldl_cons]
    by_cases h : 10 * n + (b.toNat - 48) ≤ limit
    · simp only [h, if_true]
      exact ih _ h
    · have := le_foldl_digits bs (10 * n + (b.toNat - 48))
      have : ¬ bs.foldl (fun n b => 10 * n + (b.toNat - 48)) (10 * n + (b.toNat - 48)) ≤ limit := by
        omega
      simp only [h, this, if_false]
      rfl

def toInt64? (n : Int) : Option Int64 :=
  if Int64.minValue.toInt ≤ n ∧ n ≤ Int64.maxValue.toInt then some (Int64.ofInt n) else none

end BlockMachine.Decimal
