import BlockMachine.Code.Program
import BlockMachine.Lowering.Rendering
import Mathlib.Logic.Function.Basic

/-!
# Renamings
Other numbers for the blocks and the operands of a graph, and what becomes of nodes and of programs
under them. Labels, slots, lines and values are not numbers of the graph, so they stay.
-/

namespace BlockMachine
set_option autoImplicit false

structure Renaming where
  block : BlockId → BlockId
  operand : OperandId → OperandId
  block_injective : Function.Injective block
  operand_injective : Function.Injective operand

variable (r : Renaming)

namespace Renaming

def action : Action → Action
  | .binary op left right result =>
    .binary op (r.operand left) (r.operand right) (r.operand result)
  | .assign var expr result => .assign (r.operand var) (r.operand expr) (r.operand result)
  | .concatList parts result => .concatList (parts.map r.operand) (r.operand result)
  | .constFetch name qualified result =>
    .constFetch (r.operand name) (qualified.map r.operand) (r.operand result)
  | .call name args result => .call (r.operand name) (args.map r.operand) (r.operand result)
  | .jump target => .jump (r.block target)
  | .branch cond ifTrue ifFalse => .branch (r.operand cond) (r.block ifTrue) (r.block ifFalse)
  | .declare kind name => .declare kind name
  | .echo expr => .echo (r.operand expr)
  | .ret expr => .ret (expr.map r.operand)

def node (n : Node) : Node := { n with action := r.action n.action }

def constant (c : Constant) : Constant := { c with operand := r.operand c.operand }

def slotTable (t : SlotTable) : SlotTable := .ofList (t.entries.map fun e => (r.operand e.1, e.2))

def codeBlock (b : CodeBlock) : CodeBlock :=
  { b with
    origin := r.block b.origin
    slots := r.slotTable b.slots
    constants := b.constants.map r.constant }

def program (p : Program) : Program := { p with blocks := p.blocks.map r.codeBlock }

/-- What can be reached from the roots in one graph is there in another under new numbers: each
block with the same nodes, and each operand that they use. -/
structure Carries (g g' : Graph) (roots : List BlockId) : Prop where
  nodes : ∀ (b : BlockId) (nodes : List Node), g.Reachable roots b → g.block? b = some nodes →
    g'.block? (r.block b) = some (nodes.map r.node)
  operands : ∀ b, g.Reachable roots b → ∀ o ∈ Node.uses (g.nodes b),
    g'.operand? (r.operand o) = g.operand? o

end Renaming

end BlockMachine
