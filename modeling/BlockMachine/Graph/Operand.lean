import BlockMachine.Text.Binary64
import BlockMachine.Text.Decimal
import BlockMachine.Text.Quoted
import BlockMachine.Value.Basic

/-!
# Operands
The places a graph computes with. An operand is known by its number, so two references are to the
same temporary, or to the same occurrence of a literal, exactly when the numbers agree.
-/

namespace BlockMachine
set_option autoImplicit false

structure OperandId where
  val : Nat
  deriving DecidableEq, Inhabited

def OperandId.text (o : OperandId) : String := s!"#{o.val}"

inductive Literal where
  | string (s : String)
  | integer (n : Int64)
  | float (bits : UInt64)
  | boolean (b : Bool)
  | null
  deriving DecidableEq

def Literal.value? : Literal → Option Value
  | .string s => some (.ofString s)
  | .integer n => some (.integer n)
  | .float _ | .boolean _ | .null => none

def Literal.typeName : Literal → String
  | .string _ => "string"
  | .integer _ => "int"
  | .float _ => "float"
  | .boolean _ => "bool"
  | .null => "null"

def Literal.text : Literal → String
  | .string s => quoted s
  | .integer n => Decimal.text n
  | .float bits => Binary64.text bits
  | .boolean b => if b then "true" else "false"
  | .null => "null"

inductive Operand where
  | literal (value : Literal)
  | temporary (name : Option String)
  /-- A named variable that was not resolved to a temporary. -/
  | variable (name : String)
  deriving DecidableEq

namespace Operand

def kindName : Operand → String
  | .literal _ => "literal"
  | .temporary _ => "temporary"
  | .variable _ => "variable"

def text : Operand → String
  | .literal value => "LITERAL(" ++ value.text ++ ")"
  | .temporary (some name) => "Var($" ++ name ++ ")"
  | .temporary none => "Var"
  | .variable name => "$" ++ name

end Operand

end BlockMachine
