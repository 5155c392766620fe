import BlockMachine.Machine.Reach

/-!
# Counting instructions
How many instructions a machine carries out, those that fault included. An instruction that the
step limit refuses is reached, but it is not carried out.
-/

namespace BlockMachine.Machine
set_option autoImplicit false

def carriedOut? (p : Program) (limits : Limits) (s : State) : Option Instr := do
  let a ← s.running
  let b ← p.block? a.code
  let i ← b.instrs[a.pc]?
  if (overLimit limits (s.steps + 1)).isNone then some i else none

def carried (p : Program) (limits : Limits) : Nat → State → Nat
  | 0, _ => 0
  | fuel + 1, s =>
    (carriedOut? p limits s).toList.length +
      match step p limits s with
      | .next t => carried p limits fuel t
      | .halt _ _ => 0

def runCarried (fuel : Nat) (p : Program) (limits : Limits) (h : Host) : Nat :=
  match p.verify, p.entryBlock? with
  | .ok (), some entry =>
    if limits.maxFrames ≤ h.depth then 0
    else carried p limits fuel (start p entry (h.push (.block entry.activation)))
  | _, _ => 0

/-- The machine has just carried out a number of instructions: until here it was fewer. -/
def Completes (p : Program) (limits : Limits) (s : State) (m : Nat) (t : State) : Prop :=
  ∃ n, Passes p limits n s t ∧ carried p limits n s = m ∧ ∀ k < n, carried p limits k s < m

def Idles (p : Program) (limits : Limits) (s t : State) : Prop :=
  ∃ n, Passes p limits n s t ∧ carried p limits n s = 0

namespace State

def warnings (s : State) : List String := s.trail.reverse.filterMap Event.warning?

def called (s : State) : List String := s.trail.reverse.filterMap Event.continuation?

end State

end BlockMachine.Machine
