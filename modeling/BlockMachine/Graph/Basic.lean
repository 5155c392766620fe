import BlockMachine.Graph.Node

/-!
# Control-flow graphs
Blocks of nodes and the operands they name, both known by their position, and the blocks that are
roots. References may name blocks and operands that do not exist.
-/

namespace BlockMachine
set_option autoImplicit false

structure Graph where
  blocks : List (List Node) := []
  operands : List Operand := []
  roots : List BlockId := []
  deriving DecidableEq

namespace Graph

def block? (g : Graph) (b : BlockId) : Option (List Node) := g.blocks[b.val]?

def operand? (g : Graph) (o : OperandId) : Option Operand := g.operands[o.val]?

end Graph

end BlockMachine
