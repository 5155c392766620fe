import BlockMachine.Graph.Operand
import BlockMachine.Value.Operator

/-!
# Nodes
The statements of a graph. A node computes into an operand, moves control to other blocks, writes
output, or declares something.
-/

namespace BlockMachine
set_option autoImplicit false

structure BlockId where
  val : Nat
  deriving DecidableEq, Inhabited

def BlockId.text (b : BlockId) : String := s!"Block#{b.val}"

inductive BinaryOp where
  | concat
  | plus
  | minus
  | mul
  | div
  | mod
  | smaller
  | smallerOrEqual
  | greater
  | greaterOrEqual
  | equal
  | notEqual
  deriving DecidableEq

namespace BinaryOp

def typeName : BinaryOp → String
  | .concat => "Expr_BinaryOp_Concat"
  | .plus => "Expr_BinaryOp_Plus"
  | .minus => "Expr_BinaryOp_Minus"
  | .mul => "Expr_BinaryOp_Mul"
  | .div => "Expr_BinaryOp_Div"
  | .mod => "Expr_BinaryOp_Mod"
  | .smaller => "Expr_BinaryOp_Smaller"
  | .smallerOrEqual => "Expr_BinaryOp_SmallerOrEqual"
  | .greater => "Expr_BinaryOp_Greater"
  | .greaterOrEqual => "Expr_BinaryOp_GreaterOrEqual"
  | .equal => "Expr_BinaryOp_Equal"
  | .notEqual => "Expr_BinaryOp_NotEqual"

def operator? : BinaryOp → Option Operator
  | .concat => some .concat
  | .plus => some (.arithmetic .plus)
  | .minus => some (.arithmetic .minus)
  | .mul => some (.arithmetic .mul)
  | .smaller => some (.comparison .smaller)
  | .smallerOrEqual => some (.comparison .smallerOrEqual)
  | .greater => some (.comparison .greater)
  | .greaterOrEqual => some (.comparison .greaterOrEqual)
  | .equal => some .equal
  | .notEqual => some .notEqual
  | .div | .mod => none

end BinaryOp

inductive DeclarationKind where
  | functionDef
  | classDef
  | interfaceDef
  | traitDef
  deriving DecidableEq

namespace DeclarationKind

def name : DeclarationKind → String
  | .functionDef => "function"
  | .classDef => "class"
  | .interfaceDef => "interface"
  | .traitDef => "trait"

def typeName : DeclarationKind → String
  | .functionDef => "Stmt_Function"
  | .classDef => "Stmt_Class"
  | .interfaceDef => "Stmt_Interface"
  | .traitDef => "Stmt_Trait"

end DeclarationKind

inductive Action where
  | binary (op : BinaryOp) (left right result : OperandId)
  | assign (var expr result : OperandId)
  | concatList (parts : List OperandId) (result : OperandId)
  | constFetch (name : OperandId) (qualified : Option OperandId) (result : OperandId)
  | call (name : OperandId) (args : List OperandId) (result : OperandId)
  | jump (target : BlockId)
  | branch (cond : OperandId) (ifTrue ifFalse : BlockId)
  | declare (kind : DeclarationKind) (name : String)
  | echo (expr : OperandId)
  | ret (expr : Option OperandId)
  deriving DecidableEq

namespace Action

def typeName : Action → String
  | .binary op _ _ _ => op.typeName
  | .assign _ _ _ => "Expr_Assign"
  | .concatList _ _ => "Expr_ConcatList"
  | .constFetch _ _ _ => "Expr_ConstFetch"
  | .call _ _ _ => "Expr_FuncCall"
  | .jump _ => "Stmt_Jump"
  | .branch _ _ _ => "Stmt_JumpIf"
  | .declare kind _ => kind.typeName
  | .echo _ => "Terminal_Echo"
  | .ret _ => "Terminal_Return"

def targets : Action → List BlockId
  | .jump target => [target]
  | .branch _ ifTrue ifFalse => [ifTrue, ifFalse]
  | _ => []

end Action

structure Node where
  action : Action
  line : Option Nat := none
  deriving DecidableEq

end BlockMachine
