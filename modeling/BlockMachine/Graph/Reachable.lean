import BlockMachine.Graph.Basic

/-!
# Reachable blocks
The block references met by following the targets of every node from the roots, nodes behind an
earlier jump included. A reference is reachable whether or not its block exists.
-/

namespace BlockMachine.Graph
set_option autoImplicit false

inductive Reachable (g : Graph) (roots : List BlockId) : BlockId → Prop where
  | root {b : BlockId} : b ∈ roots → Reachable g roots b
  | step {a b : BlockId} {nodes : List Node} {node : Node} : Reachable g roots a →
      g.block? a = some nodes → node ∈ nodes → b ∈ node.action.targets → Reachable g roots b

end BlockMachine.Graph
