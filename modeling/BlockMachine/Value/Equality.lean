import BlockMachine.Value.Coercion

/-!
# Loose equality
Values of different types can be equal: a boolean equals what has its truth value, an unwritten
value equals zero, numbers are compared as numbers and everything else by its text.
-/

namespace BlockMachine.Value
set_option autoImplicit false

def looseEq : Value → Value → Bool
  | .boolean b, w => b == w.toBool
  | v, .boolean b => v.toBool == b
  | .unknown, .integer n => (n != 0) == false
  | .integer n, .unknown => (n != 0) == false
  | v, w =>
    match v.asNumeric, w.asNumeric with
    | some m, some n => m == n
    | _, _ => v.toBytes == w.toBytes

end BlockMachine.Value
