import BlockMachine.Machine.Count
import BlockMachine.Machine.Footprint

/-!
# Room for scopes
A scope is a vector, and a vector holds so many values and no more. A block that asks for a larger
scope cannot be entered: the machine is given up there, without a report, and all that is left of
the run is what it has written. Anywhere else it does what a machine does that has all the room it
asks for. That there is memory for a scope that a vector can hold is taken for granted.
-/

namespace BlockMachine
set_option autoImplicit false

namespace Machine

inductive Ending where
  | returned (report : Report)
  /-- The machine was given up, and stands as the instruction left it that goes to the block. -/
  | overflowed (s : State)

def overflow? (p : Program) (limits : Limits) (s : State) : Option State := do
  let a ← s.running
  let i ← carriedOut? p limits s
  let target ← i.destination? a.scope
  let next ← p.block? target
  if next.Overflows a.scope then
    some ({ s.report (.reached a.code a.pc i.mnemonic) with steps := s.steps + 1 }.report
      (.transferred a.code target))
  else none

def endFrom (p : Program) (limits : Limits) : Nat → State → Option Ending
  | 0, _ => none
  | fuel + 1, s =>
    match overflow? p limits s with
    | some lost => some (.overflowed lost)
    | none =>
      match step p limits s with
      | .next t => endFrom p limits fuel t
      | .halt t failure => some (.returned (conclude t failure))

/-- Runs a program in the room that there is. The frame of the entry block is made first of all. -/
def attempt (fuel : Nat) (p : Program) (limits : Limits) (h : Host) : Option Ending :=
  match p.verify, p.entryBlock? with
  | .ok (), some entry =>
    if entry.Overflows #[] then some (.overflowed (start p entry h))
    else if limits.maxFrames ≤ h.depth then (run fuel p limits h).map .returned
    else endFrom p limits fuel (start p entry (h.push (.block entry.activation)))
  | _, _ => (run fuel p limits h).map .returned

def Enters (p : Program) (limits : Limits) (s : State) (next : CodeBlock) : Prop :=
  ∃ a i target, s.running = some a ∧ carriedOut? p limits s = some i ∧
    i.destination? a.scope = some target ∧ p.block? target = some next

end Machine

end BlockMachine
