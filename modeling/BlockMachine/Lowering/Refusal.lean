import BlockMachine.Graph.Node

/-!
# Refused graphs
Why a graph has no program. The first refusal ends lowering. A refusal that arises below a node
gets the node's source line on the way out, unless it names a line already.
-/

namespace BlockMachine
set_option autoImplicit false

inductive Refusal where
  | unhandledNode (category typeName : String) (line : Option Nat) (hint : Option String)
  | notImplemented (construct name : String) (line : Option Nat)
  | unsupportedOperator (typeName : String) (line : Option Nat)
  | unsupportedLiteral (typeName : String) (line : Option Nat)
  | unknownOperand (kind : String) (operand : OperandId) (line : Option Nat)
  | danglingOperand (operand : OperandId)
  | unknownBlock (block : BlockId)
  | emptyConcatList (line : Option Nat)
  | noRootBlocks
  | internal (text : String)
  deriving DecidableEq

namespace Refusal

def unsupportedExpression (node : Node) : Refusal :=
  .unhandledNode "expression" node.action.typeName node.line none

def unsupportedTerminal (node : Node) : Refusal :=
  .unhandledNode "terminal" node.action.typeName node.line
    (some "only echo is lowered by this backend")

def line? : Refusal → Option Nat
  | .unhandledNode _ _ line _ => line
  | .notImplemented _ _ line => line
  | .unsupportedOperator _ line => line
  | .unsupportedLiteral _ line => line
  | .unknownOperand _ _ line => line
  | .emptyConcatList line => line
  | .danglingOperand _ | .unknownBlock _ | .noRootBlocks | .internal _ => none

def orLine (nodeLine : Option Nat) : Refusal → Refusal
  | .unhandledNode category typeName line hint =>
    .unhandledNode category typeName (line <|> nodeLine) hint
  | .notImplemented construct name line => .notImplemented construct name (line <|> nodeLine)
  | .unsupportedOperator typeName line => .unsupportedOperator typeName (line <|> nodeLine)
  | .unsupportedLiteral typeName line => .unsupportedLiteral typeName (line <|> nodeLine)
  | .unknownOperand kind operand line => .unknownOperand kind operand (line <|> nodeLine)
  | .emptyConcatList line => .emptyConcatList (line <|> nodeLine)
  | r@(.danglingOperand _) | r@(.unknownBlock _) | r@.noRootBlocks | r@(.internal _) => r

def atLine : Option Nat → String
  | some n => s!" on line {n}"
  | none => ""

def hintLine : Option String → String
  | some hint => s!"\n  hint: {hint}"
  | none => ""

def reason : Refusal → String
  | .unhandledNode category typeName line hint =>
    s!"cannot compile {category} '{typeName}'{atLine line}{hintLine hint}"
  | .notImplemented construct name line =>
    s!"{construct} '{name}' is not implemented{atLine line}"
  | .unsupportedOperator typeName line =>
    s!"unsupported binary operator '{typeName}'{atLine line}"
  | .unsupportedLiteral typeName line =>
    s!"unknown literal operand type '{typeName}'{atLine line}"
  | .unknownOperand kind operand line =>
    s!"unknown operand type '{kind}' ({operand.text}){atLine line}"
  | .danglingOperand operand => s!"operand {operand.text} is not in the graph"
  | .unknownBlock block => s!"{block.text} is not in the graph"
  | .emptyConcatList line => s!"concat list without operands{atLine line}"
  | .noRootBlocks => "no root blocks to compile"
  | .internal text => s!"internal error: {text}"

def message (r : Refusal) : String := "compile error: " ++ r.reason

end Refusal

end BlockMachine
