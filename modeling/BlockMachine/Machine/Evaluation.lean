import BlockMachine.Machine.Fault
import BlockMachine.Value.Equality
import BlockMachine.Value.Operator

/-!
# Evaluation
The meaning of operators and of constant lookups over places that hold values, whatever the places
are. Operands are read and coerced from left to right; the first that fails is the one reported,
and the warnings up to there stay.
-/

namespace BlockMachine
set_option autoImplicit false

abbrev Eval (place : Type) := EStateM (Fault place) (List String)

variable {place : Type}

inductive Effect (place target : Type) where
  | store (writes : List (place × Value))
  | output (bytes : List UInt8)
  | transfer (destination : target)

namespace Eval

def warn (text : Option String) : Eval place Unit := fun ws => .ok () (ws ++ text.toList)

def int (read : place → Eval place Value) (mnemonic : String) (operand : place) :
    Eval place Int64 := do
  let v ← read operand
  match v.toInt with
  | .ok r =>
    warn r.warning
    return r.value
  | .error reason => throw (.coercion mnemonic operand v.type .integer reason)

def name (read : place → Eval place Value) (operand : place) : Eval place String := do
  return (← read operand).display

end Eval

namespace Operator

def eval (op : Operator) (read : place → Eval place Value) (left right : place) :
    Eval place Value :=
  match op with
  | .concat => do
    let l ← read left
    let r ← read right
    return .string (l.toBytes ++ r.toBytes)
  | .arithmetic f => do
    let a ← Eval.int read op.mnemonic left
    let b ← Eval.int read op.mnemonic right
    match f.apply a b with
    | some n => return .integer n
    | none => throw (.overflow op.mnemonic a b)
  | .comparison f => do
    let a ← Eval.int read op.mnemonic left
    let b ← Eval.int read op.mnemonic right
    return .boolean (f.holds a b)
  | .equal => do
    let l ← read left
    let r ← read right
    return .boolean (l.looseEq r)
  | .notEqual => do
    let l ← read left
    let r ← read right
    return .boolean (!l.looseEq r)

end Operator

/-- The constant named by a place. A qualified name is tried first, and the plain one if there is
no constant of the qualified name. -/
def fetchConstant (lookup : String → Option Value) (read : place → Eval place Value)
    (name : place) (qualified : Option place) : Eval place Value := do
  let name ← Eval.name read name
  let qualified ← qualified.mapM (Eval.name read)
  match qualified.bind lookup <|> lookup name with
  | some v => return v
  | none => throw (.undefinedConstant name qualified)

end BlockMachine
