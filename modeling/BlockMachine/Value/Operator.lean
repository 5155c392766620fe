import BlockMachine.Value.Basic

/-!
# Binary operators
The operators the machine knows, and their meaning on integers where they have one.
-/

namespace BlockMachine
set_option autoImplicit false

inductive Arithmetic where
  | plus
  | minus
  | mul
  deriving DecidableEq

inductive Comparison where
  | smaller
  | smallerOrEqual
  | greater
  | greaterOrEqual
  deriving DecidableEq

inductive Operator where
  | concat
  | arithmetic (op : Arithmetic)
  | comparison (op : Comparison)
  | equal
  | notEqual
  deriving DecidableEq

def Arithmetic.apply : Arithmetic → Int64 → Int64 → Option Int64
  | .plus, a, b => Decimal.toInt64? (a.toInt + b.toInt)
  | .minus, a, b => Decimal.toInt64? (a.toInt - b.toInt)
  | .mul, a, b => Decimal.toInt64? (a.toInt * b.toInt)

def Comparison.holds : Comparison → Int64 → Int64 → Bool
  | .smaller, a, b => a < b
  | .smallerOrEqual, a, b => a ≤ b
  | .greater, a, b => b < a
  | .greaterOrEqual, a, b => b ≤ a

def Operator.name : Operator → String
  | .concat => "Concat"
  | .arithmetic .plus => "Plus"
  | .arithmetic .minus => "Minus"
  | .arithmetic .mul => "Mul"
  | .comparison .smaller => "Smaller"
  | .comparison .smallerOrEqual => "SmallerOrEqual"
  | .comparison .greater => "Greater"
  | .comparison .greaterOrEqual => "GreaterOrEqual"
  | .equal => "Equal"
  | .notEqual => "NotEqual"

def Operator.mnemonic : Operator → String
  | .concat => "CONCAT"
  | .arithmetic .plus => "PLUS"
  | .arithmetic .minus => "MINUS"
  | .arithmetic .mul => "MUL"
  | .comparison .smaller => "SMALLER"
  | .comparison .smallerOrEqual => "SMALLER_EQ"
  | .comparison .greater => "GREATER"
  | .comparison .greaterOrEqual => "GREATER_EQ"
  | .equal => "EQUAL"
  | .notEqual => "NOT_EQUAL"

end BlockMachine
