import BlockMachine.Code.Program

/-!
# Well-formed programs
A program is well formed when every slot and label in it resolves. The verifier decides this and
names the first defect: the entry, then block by block the label, the line table, the constants,
and last each instruction's slots and targets.
-/

namespace BlockMachine
set_option autoImplicit false

inductive Defect where
  | missingEntry (entry : Label)
  | misplacedBlock (block : Label) (index : Nat)
  | slotOutOfRange (block : Label) (pc : Nat) (mnemonic : String) (slot : Slot) (scopeSize : Nat)
  | constantOutOfRange (block : Label) (slot : Slot) (scopeSize : Nat)
  | missingTarget (block : Label) (pc : Nat) (mnemonic : String) (target : Label)
  | lineTableMismatch (block : Label) (instrs lines : Nat)
  deriving DecidableEq

def Defect.message : Defect → String
  | .missingEntry entry => s!"verify error: entry {entry.text} does not exist"
  | .misplacedBlock block index => s!"verify error: {block.text} is stored at index {index}"
  | .slotOutOfRange block pc mnemonic slot scopeSize =>
    s!"verify error: {block.text} pc {pc} ({mnemonic}) uses slot {slot}, scope has {scopeSize}"
  | .constantOutOfRange block slot scopeSize =>
    s!"verify error: {block.text} constant pool uses slot {slot}, scope has {scopeSize}"
  | .missingTarget block pc mnemonic target =>
    s!"verify error: {block.text} pc {pc} ({mnemonic}) targets missing {target.text}"
  | .lineTableMismatch block instrs lines =>
    s!"verify error: {block.text} has {instrs} ops but {lines} line entries"

def Instr.Resolves (scopeSize blockCount : Nat) (i : Instr) : Prop :=
  (∀ s ∈ i.slots, s < scopeSize) ∧ ∀ t ∈ i.targets, t.index < blockCount

instance (scopeSize blockCount : Nat) (i : Instr) : Decidable (i.Resolves scopeSize blockCount) :=
  inferInstanceAs (Decidable (_ ∧ _))

structure CodeBlock.WellFormed (blockCount index : Nat) (b : CodeBlock) : Prop where
  label_eq : b.label.index = index
  lines_length : b.lines.length = b.instrs.length
  constants_lt : ∀ c ∈ b.constants, c.slot < b.scopeSize
  resolves : ∀ i ∈ b.instrs, i.Resolves b.scopeSize blockCount

/-- The property that lets a machine run the program without a reference going astray. -/
structure Program.WellFormed (p : Program) : Prop where
  entry_lt : p.entry.index < p.blocks.length
  blocks_wf : ∀ (i : Nat) (b : CodeBlock),
    p.blocks[i]? = some b → b.WellFormed p.blocks.length i

namespace Program

def instrDefect? (p : Program) (b : CodeBlock) (pc : Nat) (i : Instr) : Option Defect :=
  match i.slots.find? (b.scopeSize ≤ ·) with
  | some s => some (.slotOutOfRange b.label pc i.mnemonic s b.scopeSize)
  | none => (i.targets.find? fun t => (p.block? t).isNone).map
      (.missingTarget b.label pc i.mnemonic)

def instrsDefect? (p : Program) (b : CodeBlock) : Nat → List Instr → Option Defect
  | _, [] => none
  | pc, i :: is => p.instrDefect? b pc i <|> instrsDefect? p b (pc + 1) is

def blockDefect? (p : Program) (index : Nat) (b : CodeBlock) : Option Defect :=
  if b.label.index ≠ index then some (.misplacedBlock b.label index)
  else if b.instrs.length ≠ b.lines.length then
    some (.lineTableMismatch b.label b.instrs.length b.lines.length)
  else
    match b.constants.find? (b.scopeSize ≤ ·.slot) with
    | some c => some (.constantOutOfRange b.label c.slot b.scopeSize)
    | none => p.instrsDefect? b 0 b.instrs

def blocksDefect? (p : Program) : Nat → List CodeBlock → Option Defect
  | _, [] => none
  | index, b :: bs => p.blockDefect? index b <|> blocksDefect? p (index + 1) bs

def defect? (p : Program) : Option Defect :=
  if (p.block? p.entry).isNone then some (.missingEntry p.entry)
  else p.blocksDefect? 0 p.blocks

def verify (p : Program) : Except Defect Unit :=
  match p.defect? with
  | some d => .error d
  | none => .ok ()

end Program

end BlockMachine
