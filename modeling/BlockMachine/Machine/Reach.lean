import BlockMachine.Machine.Run

/-!
# Reachable states
The states that a machine passes through, and where it halts.
-/

namespace BlockMachine.Machine
set_option autoImplicit false

inductive Reaches (p : Program) (limits : Limits) : State → State → Prop where
  | refl (s : State) : Reaches p limits s s
  | step {s t u : State} : Reaches p limits s t → step p limits t = .next u → Reaches p limits s u

inductive Passes (p : Program) (limits : Limits) : Nat → State → State → Prop where
  | refl (s : State) : Passes p limits 0 s s
  | head {n : Nat} {s t u : State} : step p limits s = .next t → Passes p limits n t u →
      Passes p limits (n + 1) s u

/-- Where a running block has the instructions ahead and the limit leaves room for them, the machine
carries them out one after another. They take one scope to another and do nothing to the host. -/
def Takes (is : List Instr) (before after : Scope) : Prop :=
  ∀ (p : Program) (limits : Limits) (s : State) (a : Activation) (b : CodeBlock)
    (more : List Instr), s.running = some a → a.scope = before → p.block? a.code = some b →
    b.instrs.drop a.pc = is ++ more → overLimit limits (s.steps + is.length) = none →
    ∃ t, Passes p limits is.length s t ∧
      t.running = some { a with scope := after, pc := a.pc + is.length } ∧ t.host = s.host

def Halts (p : Program) (limits : Limits) (s : State) (after : State) (failure : Option Failure) :
    Prop :=
  ∃ n t, Passes p limits n s t ∧ step p limits t = .halt after failure

def Visits (p : Program) (limits : Limits) (h : Host) (s : State) : Prop :=
  p.verify = .ok () ∧ h.depth < limits.maxFrames ∧ ∃ entry, p.entryBlock? = some entry ∧
    Reaches p limits (start p entry (h.push (.block entry.activation))) s

/-- The running block of the state is at an instruction, or at its end. -/
structure State.At (s : State) (p : Program) (a : Activation) (b : CodeBlock) (i : Option Instr) :
    Prop where
  running : s.running = some a
  block : p.block? a.code = some b
  instr : b.instrs[a.pc]? = i

def locate (b : CodeBlock) (a : Activation) (i : Instr) : Location where
  block := b.label
  pc := a.pc
  mnemonic := i.mnemonic
  line := b.line a.pc
  cameFrom := a.cameFrom

end BlockMachine.Machine
