import BlockMachine.Code.Listing
import Mathlib.Data.List.Forall2

/-!
# What a listing shows
A listing shows the code of a program and leaves out the operand numbers, the slot tables and the
sizes of the scopes. Each constant has one line to itself, known by how it starts.
-/

namespace BlockMachine
set_option autoImplicit false

def Value.IsText (v : Value) : Prop := ∀ bytes, v = .string bytes → ∃ s, Utf8.encode s = bytes

structure CodeBlock.SameCode (b c : CodeBlock) : Prop where
  label_eq : b.label = c.label
  origin_eq : b.origin = c.origin
  instrs_eq : b.instrs = c.instrs
  lines_eq : b.lines = c.lines
  slots_eq : b.constants.map (·.slot) = c.constants.map (·.slot)

def CodeBlock.SameValues (b c : CodeBlock) : Prop :=
  b.constants.map (·.value) = c.constants.map (·.value)

def CodeBlock.withoutConstants (b : CodeBlock) : CodeBlock := { b with constants := [] }

def Constant.line (c : Constant) : String := s!" const r{c.slot} = {c.value.text}"

def isConstantLine (line : String) : Bool := " const r".toList.isPrefixOf line.toList

namespace Program

structure SameCode (p q : Program) : Prop where
  entry_eq : p.entry = q.entry
  slotCount_eq : p.slotCount = q.slotCount
  blocks : List.Forall₂ CodeBlock.SameCode p.blocks q.blocks

def SameValues (p q : Program) : Prop := List.Forall₂ CodeBlock.SameValues p.blocks q.blocks

def HoldsText (p : Program) : Prop := ∀ b ∈ p.blocks, ∀ c ∈ b.constants, c.value.IsText

def withoutConstants (p : Program) : Program :=
  { p with blocks := p.blocks.map CodeBlock.withoutConstants }

/-- No constant shows in a line of something else, or as more than one line. -/
structure ConstantsApart (p : Program) : Prop where
  split_eq : p.listing.toList.splitOn '\n' = p.lines.map String.toList ++ [[]]
  constant_lines :
    p.lines.filter isConstantLine = p.blocks.flatMap fun b => b.constants.map (·.line)
  other_lines : p.lines.filter (fun line => !isConstantLine line) = p.withoutConstants.lines

end Program

end BlockMachine
