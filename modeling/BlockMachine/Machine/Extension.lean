import BlockMachine.Machine.Run

/-!
# Longer programs
A program that begins with the blocks of another and may have more slots. Only the event that a run
starts with gives the numbers of blocks and slots, so everything else that a run tells can be the
same for both.
-/

namespace BlockMachine
set_option autoImplicit false

def CodeBlock.resize (size : Nat) (b : CodeBlock) : CodeBlock := { b with scopeSize := size }

structure Program.Extends (p q : Program) : Prop where
  entry : p.entry = q.entry
  slotCount : q.slotCount ≤ p.slotCount
  /-- Only the size of the scope differs in a block that both have. -/
  blocks : q.blocks.map (·.resize p.slotCount) <+: p.blocks

structure Machine.Report.Agrees (r r' : Machine.Report) : Prop where
  result : r'.result = r.result
  steps : r'.steps = r.steps
  host : r'.host = r.host
  warnings : r'.warnings = r.warnings
  called : r'.called = r.called
  events : r'.events.tail = r.events.tail

end BlockMachine
