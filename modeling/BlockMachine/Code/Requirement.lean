import BlockMachine.Code.Verifier

/-!
# Requirements
What a program has to meet, as a list in the order of the text of the program: the entry comes
first, then every block with its label, its line table, its constants, and the operands and targets
of its instructions.
-/

namespace BlockMachine
set_option autoImplicit false

namespace Instr

def result? : Instr → Option Slot
  | .assign result _ _ | .binary _ result _ _ | .constFetch result _ _ => some result
  | .echo _ | .jump _ | .branch _ _ _ => none

def inputs : Instr → List Slot
  | .echo value => [value]
  | .assign _ var expr => [var, expr]
  | .binary _ _ left right => [left, right]
  | .constFetch _ name none => [name]
  | .constFetch _ name (some qualified) => [name, qualified]
  | .jump _ => []
  | .branch cond _ _ => [cond]

end Instr

/-- One thing that a program has to meet, and the place in it that this is about. -/
inductive Requirement where
  | entry
  | label (index : Nat) (b : CodeBlock)
  | lineTable (b : CodeBlock)
  | constant (b : CodeBlock) (c : Constant)
  | slot (b : CodeBlock) (pc : Nat) (i : Instr) (s : Slot)
  | target (b : CodeBlock) (pc : Nat) (i : Instr) (t : Label)

namespace Requirement

def Met (p : Program) : Requirement → Prop
  | .entry => p.entry.index < p.blocks.length
  | .label index b => b.label.index = index
  | .lineTable b => b.lines.length = b.instrs.length
  | .constant b c => c.slot < b.scopeSize
  | .slot b _ _ s => s < b.scopeSize
  | .target _ _ _ t => t.index < p.blocks.length

instance (p : Program) : DecidablePred (Met p)
  | .entry | .target _ _ _ _ | .constant _ _ | .slot _ _ _ _ => Nat.decLt _ _
  | .label _ _ | .lineTable _ => Nat.decEq _ _

def defect (p : Program) : Requirement → Defect
  | .entry => .missingEntry p.entry
  | .label index b => .misplacedBlock b.label index
  | .lineTable b => .lineTableMismatch b.label b.instrs.length b.lines.length
  | .constant b c => .constantOutOfRange b.label c.slot b.scopeSize
  | .slot b pc i s => .slotOutOfRange b.label pc i.mnemonic s b.scopeSize
  | .target b pc i t => .missingTarget b.label pc i.mnemonic t

def violation? (p : Program) (q : Requirement) : Option Defect :=
  if q.Met p then none else some (q.defect p)

end Requirement

/-- The result is looked at before the inputs, and all slots before the targets. -/
def Instr.requirements (b : CodeBlock) (pc : Nat) (i : Instr) : List Requirement :=
  (i.result?.toList ++ i.inputs).map (.slot b pc i) ++ i.targets.map (.target b pc i)

def CodeBlock.requirements (index : Nat) (b : CodeBlock) : List Requirement :=
  [.label index b, .lineTable b] ++ b.constants.map (.constant b) ++
    b.instrs.zipIdx.flatMap fun (i, pc) => i.requirements b pc

def Program.requirements (p : Program) : List Requirement :=
  .entry :: p.blocks.zipIdx.flatMap fun (b, index) => b.requirements index

end BlockMachine
