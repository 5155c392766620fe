import BlockMachine.Lowering.Rendering
import BlockMachine.Lowering.Refusal

/-!
# Checks
What can be wrong with a graph, as a list of obligations in the order in which they are looked at.
The list is made without lowering anything: a block comes up once, behind those that were referred
to before it.
-/

namespace BlockMachine
set_option autoImplicit false

/-- What is checked of a node: that its kind lowers at all, that an operand is one that lowers, that
a block exists. -/
inductive Check where
  | supported
  | operand (o : OperandId)
  | block (b : BlockId)
  deriving DecidableEq

def Action.checks (a : Action) : List Check :=
  .supported :: (a.operands.map .operand ++ a.targets.map .block)

namespace Graph

def operandRefusal? (g : Graph) (line : Option Nat) (o : OperandId) : Option Refusal :=
  match g.operand? o with
  | none => some (.danglingOperand o)
  | some (.literal (.string _)) | some (.literal (.integer _)) | some (.temporary _) => none
  | some (.literal (.float _)) => some (.unsupportedLiteral "float" line)
  | some (.literal (.boolean _)) => some (.unsupportedLiteral "bool" line)
  | some (.literal .null) => some (.unsupportedLiteral "null" line)
  | some (.variable _) => some (.unknownOperand "variable" o line)

def blockRefusal? (g : Graph) (b : BlockId) : Option Refusal :=
  if (g.block? b).isSome then none else some (.unknownBlock b)

end Graph

namespace Node

def kindRefusal? (n : Node) : Option Refusal :=
  match n.action with
  | .binary op _ _ _ =>
    if op.operator?.isSome then none else some (.unsupportedOperator op.typeName n.line)
  | .concatList [] _ => some (.emptyConcatList n.line)
  | .call _ _ _ => some (.unhandledNode "expression" "Expr_FuncCall" n.line none)
  | .declare kind name => some (.notImplemented kind.name name n.line)
  | .ret _ => some (.unhandledNode "terminal" "Terminal_Return" n.line
      (some "only echo is lowered by this backend"))
  | .assign _ _ _ | .concatList (_ :: _) _ | .constFetch _ _ _ | .jump _ | .branch _ _ _ | .echo _ =>
    none

def refusal? (n : Node) (g : Graph) : Check → Option Refusal
  | .supported => n.kindRefusal?
  | .operand o => g.operandRefusal? n.line o
  | .block b => g.blockRefusal? b

end Node

inductive Obligation where
  | root (b : BlockId)
  | node (n : Node) (c : Check)
  deriving DecidableEq

namespace Obligation

def refusal? (g : Graph) : Obligation → Option Refusal
  | .root b => g.blockRefusal? b
  | .node n c => n.refusal? g c

def line : Obligation → Option Nat
  | .root _ => none
  | .node n _ => n.line

def block? : Obligation → Option BlockId
  | .root b | .node _ (.block b) => some b
  | .node _ .supported | .node _ (.operand _) => none

end Obligation

def Refusal.hasLine : Refusal → Bool
  | .unhandledNode _ _ _ _ | .notImplemented _ _ _ | .unsupportedOperator _ _
  | .unsupportedLiteral _ _ | .unknownOperand _ _ _ | .emptyConcatList _ => true
  | .danglingOperand _ | .unknownBlock _ | .noRootBlocks | .internal _ => false

def Node.duties (n : Node) : List Obligation := n.action.checks.map (.node n)

namespace Graph

variable (g : Graph)

def duties (b : BlockId) : List Obligation := (g.nodes b).flatMap Node.duties

def follow (known : List BlockId) (i : Nat) : List BlockId :=
  match known[i]? with
  | some b => (Node.targets (g.nodes b)).foldl enlist known
  | none => known

/-- The known blocks with those that a root leads to behind them, in the order in which they are
referred to. Blocks that exist are followed once, so as many turns as there are blocks will do. -/
def discover (known : List BlockId) (root : BlockId) : List BlockId :=
  (List.range' known.length g.blocks.length).foldl g.follow (enlist known root)

def obligations : List BlockId → List BlockId → List Obligation
  | _, [] => []
  | known, root :: roots =>
    .root root :: (((g.discover known root).drop known.length).flatMap g.duties
      ++ obligations (g.discover known root) roots)

end Graph

end BlockMachine
