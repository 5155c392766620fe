import BlockMachine.Lowering.Rendering
import BlockMachine.Machine.Frame
import Mathlib.Data.List.Forall2

/-!
# Transcripts
What a program has to show of the graph it was made from: which blocks it has and where its jumps
lead, and who owns the slots of the scope that its blocks share.
-/

namespace BlockMachine
set_option autoImplicit false

/-- The block is made of the nodes: the code of one after another, each with spare slots of its own,
and beside every instruction the line of its node. -/
structure CodeBlock.Spells (b : CodeBlock) (pl : Placement) (nodes : List Node)
    (spares : List (List Slot)) : Prop where
  joints : spares.map List.length = nodes.map (·.action.joints)
  instrs : b.instrs = (nodes.zipWith (fun n spare => n.action.code pl spare) spares).flatten
  lines : b.lines =
    (nodes.zipWith (fun n spare => (n.action.code pl spare).map fun _ => n.line) spares).flatten

namespace Program

/-- Every block is made of the nodes of its graph block, all under one placement. A spare slot
belongs to one node, and to no operand. -/
structure SpelledFrom (p : Program) (g : Graph) (pl : Placement) (spares : List (List (List Slot))) :
    Prop where
  blocks : List.Forall₂ (fun b spare => ∃ nodes, g.block? b.origin = some nodes ∧
    (∀ n ∈ nodes, n.action.Lowerable g) ∧ b.Spells pl nodes spare) p.blocks spares
  fresh : spares.flatten.flatten.Nodup
  apart : ∀ o, pl.slot o ∉ spares.flatten.flatten

/-- The program has one block for each graph block that can be reached, which is found by it, and a
jump leads to the block made from the one that its node names. -/
structure Transcribes (p : Program) (g : Graph) (roots : List BlockId) (pl : Placement) : Prop where
  nodup : (p.blocks.map CodeBlock.origin).Nodup
  reachable : ∀ o, o ∈ p.blocks.map CodeBlock.origin ↔ g.Reachable roots o
  label_eq : ∀ (i : Nat) (b : CodeBlock), p.blocks[i]? = some b → b.label = ⟨i⟩
  found : ∀ o b, p.blockFor? o = some b ↔ b ∈ p.blocks ∧ b.origin = o
  leads : ∀ b ∈ p.blocks, ∀ n ∈ g.nodes b.origin, ∀ spare,
    List.Forall₂ (fun l t => ∃ c, p.block? l = some c ∧ c.origin = t)
      ((n.action.code pl spare).flatMap Instr.targets) n.action.targets

/-- Every slot has one owner. A block lists the temporaries that its nodes use, and loads the
literals that they use, each once and in the order of first use; neither a temporary nor a spare
slot is lost when a block is entered. -/
structure Allocates (p : Program) (g : Graph) (pl : Placement) (spares : List (List (List Slot))) :
    Prop where
  injective : Function.Injective pl.slot
  temporaries : ∀ b ∈ p.blocks, ∀ o s, (o, s) ∈ b.slots.entries ↔
    o ∈ Node.uses (g.nodes b.origin) ∧ g.isTemporary o = true ∧ s = pl.slot o
  literals : ∀ b ∈ p.blocks, b.constants.map Constant.operand =
    (Node.uses (g.nodes b.origin)).eraseDups.filter fun o => (g.literal? o).isSome
  values : ∀ b ∈ p.blocks, ∀ c ∈ b.constants,
    c.slot = pl.slot c.operand ∧ g.literal? c.operand = some c.value
  dense : ∀ s, (∃ b ∈ p.blocks, ∃ i ∈ b.instrs, s ∈ i.slots) ↔ s < p.slotCount
  kept : ∀ b ∈ p.blocks, ∀ s,
    s ∈ spares.flatten.flatten ∨ (∃ o, g.isTemporary o = true ∧ s = pl.slot o) →
    ∀ (scope : Scope) (cameFrom : Option Label) (v : Value), scope[s]? = some v →
      (b.enter scope cameFrom).scope[s]? = some v

end Program

end BlockMachine
