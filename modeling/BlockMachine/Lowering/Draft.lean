import BlockMachine.Code.Program
import BlockMachine.Code.Record
import BlockMachine.Graph.Basic
import BlockMachine.Log
import BlockMachine.Lowering.Refusal

/-!
# Drafts
The state of an unfinished lowering. A graph block gets its label when something first refers to
it, and an operand its slot when something first uses it; both are kept for the whole lowering.
Blocks are filled in label order, so the finished blocks are those with the smallest labels.
-/

namespace BlockMachine
set_option autoImplicit false

namespace Lowering

inductive Event where
  | emitted (block : Label) (instr : Instr)
  | blockDone (block : Label) (origin : BlockId) (instrs : Nat)
  | programDone (blocks slots : Nat) (entry : Label)
  deriving DecidableEq

def Event.entry : Event → LogEntry
  | .emitted block instr => ⟨.trace, "emit", [("block", block.text), ("op", instr.record)]⟩
  | .blockDone block origin instrs =>
    ⟨.debug, "compiled block",
      [("block", block.text), ("origin", origin.text), ("ops", toString instrs)]⟩
  | .programDone blocks slots entry =>
    ⟨.debug, "compiled program",
      [("blocks", toString blocks), ("slots", toString slots), ("entry", entry.text)]⟩

end Lowering

structure Draft where
  /-- The graph blocks that have a label; the label is the position. -/
  registered : List BlockId := []
  finished : List CodeBlock := []
  current : CodeBlock := { label := default, origin := default }
  slotOf : List (OperandId × Slot) := []
  nextSlot : Slot := 0
  events : List Lowering.Event := []
  deriving DecidableEq

abbrev Lowering := EStateM Refusal Draft

namespace Lowering

def report (e : Event) : Lowering Unit := fun d => .ok () { d with events := d.events ++ [e] }

def freshSlot : Lowering Slot := fun d => .ok d.nextSlot { d with nextSlot := d.nextSlot + 1 }

def slotFor (o : OperandId) : Lowering Slot := fun d =>
  match d.slotOf.lookup o with
  | some s => .ok s d
  | none =>
    .ok d.nextSlot { d with slotOf := d.slotOf ++ [(o, d.nextSlot)], nextSlot := d.nextSlot + 1 }

def labelFor (g : Graph) (b : BlockId) : Lowering Label := fun d =>
  match d.registered.idxOf? b with
  | some i => .ok ⟨i⟩ d
  | none =>
    if (g.block? b).isNone then .error (.unknownBlock b) d
    else .ok ⟨d.registered.length⟩ { d with registered := d.registered ++ [b] }

def beginBlock (label : Label) (origin : BlockId) : Lowering Unit := fun d =>
  .ok () { d with current := { label, origin } }

def emit (i : Instr) (line : Option Nat) : Lowering Unit := fun d =>
  .ok () { d with
    current := d.current.add i line
    events := d.events ++ [.emitted d.current.label i] }

def useConstant (c : Constant) : Lowering Slot := fun d =>
  .ok (d.current.registerConstant c).1 { d with current := (d.current.registerConstant c).2 }

def useTemporary (o : OperandId) (s : Slot) : Lowering Unit := fun d =>
  .ok () { d with current := d.current.recordSlot o s }

def finishBlock : Lowering Unit := fun d =>
  .ok () { d with
    finished := d.finished ++ [d.current]
    events := d.events ++
      [.blockDone d.current.label d.current.origin d.current.instrs.length] }

end Lowering

end BlockMachine
