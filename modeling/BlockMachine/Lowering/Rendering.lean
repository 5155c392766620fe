import BlockMachine.Code.Program
import BlockMachine.Graph.Reachable

/-!
# Renderings
The code of a graph once it is settled where everything goes: a slot for every operand, a label for
every graph block, and spare slots for the partial results of joining. A rendering reads off what
lowering has to find out as it goes.
-/

namespace BlockMachine
set_option autoImplicit false

def enlist {α : Type} [DecidableEq α] (xs : List α) (x : α) : List α :=
  if x ∈ xs then xs else xs ++ [x]

namespace Graph

def literal? (g : Graph) (o : OperandId) : Option Value :=
  match g.operand? o with
  | some (.literal l) => l.value?
  | _ => none

def isTemporary (g : Graph) (o : OperandId) : Bool :=
  match g.operand? o with
  | some (.temporary _) => true
  | _ => false

def usable (g : Graph) (o : OperandId) : Bool := (g.literal? o).isSome || g.isTemporary o

end Graph

structure Placement where
  slot : OperandId → Slot
  label : BlockId → Label

namespace Action

def operands : Action → List OperandId
  | .binary _ left right result => [result, left, right]
  | .assign var expr result => [result, var, expr]
  | .concatList parts result => parts ++ [result]
  | .constFetch name qualified result => [result, name] ++ qualified.toList
  | .branch cond _ _ => [cond]
  | .echo expr => [expr]
  | .call _ _ _ | .jump _ | .declare _ _ | .ret _ => []

def joints : Action → Nat
  | .concatList parts _ => parts.length - 1
  | _ => 0

def supported : Action → Bool
  | .binary op _ _ _ => op.operator?.isSome
  | .concatList parts _ => !parts.isEmpty
  | .call _ _ _ | .declare _ _ | .ret _ => false
  | .assign _ _ _ | .constFetch _ _ _ | .jump _ | .branch _ _ _ | .echo _ => true

structure Lowerable (g : Graph) (a : Action) : Prop where
  supported : a.supported = true
  usable : ∀ o ∈ a.operands, g.usable o = true

/-- Joins parts one by one to what a slot holds, each partial result in a spare slot, and stores
the last one. -/
def joinCode (result : Slot) : Slot → List Slot → List Slot → List Instr
  | joined, part :: parts, next :: spare =>
    .binary .concat next joined part :: joinCode result next parts spare
  | joined, _, _ => [.assign result result joined]

def code (pl : Placement) (spare : List Slot) : Action → List Instr
  | .binary op left right result =>
    op.operator?.toList.map fun f => .binary f (pl.slot result) (pl.slot left) (pl.slot right)
  | .assign var expr result => [.assign (pl.slot result) (pl.slot var) (pl.slot expr)]
  | .concatList [] _ => []
  | .concatList (first :: rest) result =>
    joinCode (pl.slot result) (pl.slot first) (rest.map pl.slot) spare
  | .constFetch name qualified result =>
    [.constFetch (pl.slot result) (pl.slot name) (qualified.map pl.slot)]
  | .jump target => [.jump (pl.label target)]
  | .branch cond ifTrue ifFalse => [.branch (pl.slot cond) (pl.label ifTrue) (pl.label ifFalse)]
  | .echo expr => [.echo (pl.slot expr)]
  | .call _ _ _ | .declare _ _ | .ret _ => []

end Action

def Node.codes (pl : Placement) : List Node → List (List Slot) → List Instr
  | node :: nodes, spare :: spares => node.action.code pl spare ++ codes pl nodes spares
  | _, _ => []

def Node.lines (nodes : List Node) : List (Option Nat) :=
  nodes.flatMap fun node => List.replicate (node.action.joints + 1) node.line

def Node.uses (nodes : List Node) : List OperandId := nodes.flatMap (·.action.operands)

def Node.targets (nodes : List Node) : List BlockId := nodes.flatMap (·.action.targets)

namespace Graph

def nodes (g : Graph) (b : BlockId) : List Node := (g.block? b).getD []

def operandsOf (g : Graph) (origins : List BlockId) : List OperandId :=
  (origins.flatMap fun b => Node.uses (g.nodes b)).foldl enlist []

def constants (g : Graph) (slot : OperandId → Slot) (uses : List OperandId) : List Constant :=
  (uses.foldl enlist []).filterMap fun o => (g.literal? o).map (⟨o, slot o, ·⟩)

def slotTable (g : Graph) (slot : OperandId → Slot) (uses : List OperandId) : SlotTable :=
  .ofList ((uses.filter g.isTemporary).map fun o => (o, slot o))

def render (g : Graph) (pl : Placement) (scopeSize : Nat) (origin : BlockId)
    (spares : List (List Slot)) : CodeBlock where
  label := pl.label origin
  origin := origin
  instrs := Node.codes pl (g.nodes origin) spares
  lines := Node.lines (g.nodes origin)
  slots := g.slotTable pl.slot (Node.uses (g.nodes origin))
  constants := g.constants pl.slot (Node.uses (g.nodes origin))
  scopeSize := scopeSize

/-- The block is there, all its nodes lower, and all it refers to is among the given blocks. -/
structure Covers (g : Graph) (origins : List BlockId) (b : BlockId) : Prop where
  exist : (g.block? b).isSome = true
  lowerable : ∀ n ∈ g.nodes b, n.action.Lowerable g
  targets : ∀ t ∈ Node.targets (g.nodes b), t ∈ origins

end Graph

structure Layout extends Placement where
  origins : List BlockId
  spares : List (List (List Slot))
  slotCount : Nat

namespace Layout

def program (l : Layout) (g : Graph) : Program where
  blocks := l.origins.zipWith (g.render l.toPlacement l.slotCount) l.spares
  entry := ⟨0⟩
  slotCount := l.slotCount

/-- A layout that lowering may come to: the blocks are those that can be reached, and every slot
belongs to one operand or is spare for one node. -/
structure Sound (l : Layout) (g : Graph) (roots : List BlockId) : Prop where
  nodup : l.origins.Nodup
  label_eq : ∀ (i : Nat) (b : BlockId), l.origins[i]? = some b → l.label b = ⟨i⟩
  head : ∃ r, roots.head? = some r ∧ l.origins[0]? = some r
  mem_of_root : ∀ b ∈ roots, b ∈ l.origins
  reachable : ∀ b ∈ l.origins, g.Reachable roots b
  covers : ∀ b ∈ l.origins, g.Covers l.origins b
  joints : l.spares.map (·.map List.length) =
    l.origins.map fun b => (g.nodes b).map (·.action.joints)
  slots : ((g.operandsOf l.origins).map l.slot ++ l.spares.flatten.flatten).Perm
    (List.range l.slotCount)

end Layout

end BlockMachine
