import BlockMachine.Code.SlotTable
import BlockMachine.Graph.Node

/-!
# Programs
Blocks of instructions with what each needs to run: how many slots its scope has, and the literal
values loaded into them on entry. Nothing here is trusted; which programs run safely is said in
the module on well-formedness.
-/

namespace BlockMachine
set_option autoImplicit false

structure Constant where
  operand : OperandId
  slot : Slot
  value : Value
  deriving DecidableEq

structure CodeBlock where
  label : Label
  origin : BlockId
  instrs : List Instr := []
  lines : List (Option Nat) := []
  slots : SlotTable := .empty
  constants : List Constant := []
  scopeSize : Nat := 0
  deriving DecidableEq

namespace CodeBlock

def add (b : CodeBlock) (i : Instr) (line : Option Nat) : CodeBlock :=
  { b with instrs := b.instrs ++ [i], lines := b.lines ++ [line] }

def line (b : CodeBlock) (pc : Nat) : Option Nat := b.lines[pc]?.join

def constant? (b : CodeBlock) (o : OperandId) : Option Constant :=
  b.constants.find? (·.operand = o)

/-- The first registration of a literal stands: a later one changes neither slot nor value, and
gets the slot of the first. -/
def registerConstant (b : CodeBlock) (c : Constant) : Slot × CodeBlock :=
  match b.constant? c.operand with
  | some d => (d.slot, b)
  | none => (c.slot, { b with constants := b.constants ++ [c] })

def recordSlot (b : CodeBlock) (o : OperandId) (s : Slot) : CodeBlock :=
  { b with slots := b.slots.insert o s }

end CodeBlock

structure Program where
  /-- A block's label is its position here. -/
  blocks : List CodeBlock
  entry : Label
  slotCount : Nat
  deriving DecidableEq

namespace Program

def block? (p : Program) (l : Label) : Option CodeBlock := p.blocks[l.index]?

def entryBlock? (p : Program) : Option CodeBlock := p.block? p.entry

def blockFor? (p : Program) (origin : BlockId) : Option CodeBlock :=
  p.blocks.find? (·.origin = origin)

end Program

end BlockMachine
