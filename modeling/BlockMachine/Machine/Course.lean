import BlockMachine.Machine.Reach

/-!
# The course of a frame
What a frame of a run has done since it was taken off the stack: which blocks it has entered, and
how many instructions it has carried out. A jump replaces the activation and keeps the frame.
-/

namespace BlockMachine.Machine
set_option autoImplicit false

/-- The run of a program on a host has come to the state, where a frame runs that was taken off the
stack as the first activation. It has since entered the blocks, the newest first and its first block
included, and has carried out a number of instructions. -/
inductive Course (p : Program) (limits : Limits) (h : Host) (first : Activation) :
    List Label → Nat → State → Prop where
  | taken {s t : State} {rest : List Frame} : Visits p limits h s → s.running = none →
      s.host.pending = .block first :: rest → step p limits s = .next t →
      Course p limits h first [first.code] 0 t
  | stayed {entered : List Label} {n : Nat} {s t : State} {a : Activation} {b : CodeBlock}
      {i : Instr} : Course p limits h first entered n s → s.At p a b (some i) → i.targets = [] →
      step p limits s = .next t → Course p limits h first entered (n + 1) t
  | jumped {entered : List Label} {n : Nat} {s t : State} {a a' : Activation} {b : CodeBlock}
      {i : Instr} : Course p limits h first entered n s → s.At p a b (some i) → i.targets ≠ [] →
      step p limits s = .next t → t.running = some a' →
      Course p limits h first (a'.code :: entered) (n + 1) t

def frames (entry : CodeBlock) (h : Host) : List Frame := .block entry.activation :: h.pending

end BlockMachine.Machine
