import BlockMachine.Code.Verifier
import BlockMachine.Machine.Step

/-!
# Runs
A run verifies its program, puts the entry block on top of the host's pending frames, and steps
until no frame is left or something fails. A run need not end, so it is given fuel: more fuel never
changes the report of a run that ended.
-/

namespace BlockMachine
set_option autoImplicit false

namespace Machine

structure Report where
  result : Except Failure Unit
  steps : Nat
  events : List Event
  host : Host

namespace Report

def warnings (r : Report) : List String := r.events.filterMap Event.warning?

def called (r : Report) : List String := r.events.filterMap Event.continuation?

end Report

/-- The halting state within a number of transitions. -/
def iterate (p : Program) (limits : Limits) : Nat → State → Option (State × Option Failure)
  | 0, _ => none
  | fuel + 1, s =>
    match step p limits s with
    | .next s => iterate p limits fuel s
    | .halt s failure => some (s, failure)

/-- Flushes the output and closes the report. A failure drops the pending frames and hides a
failure to flush. -/
def conclude (s : State) : Option Failure → Report
  | some f =>
    ⟨.error f, s.steps, (Event.failed s.steps f.fault.message :: s.trail).reverse, s.host.clear⟩
  | none =>
    match s.host.sink.flush with
    | some reason => ⟨.error { fault := .output reason }, s.steps, s.trail.reverse, s.host⟩
    | none => ⟨.ok (), s.steps, (Event.finished s.steps :: s.trail).reverse, s.host⟩

def start (p : Program) (entry : CodeBlock) (h : Host) : State where
  host := h
  trail := [.started entry.label p.blocks.length p.slotCount]

def runFrom (fuel : Nat) (p : Program) (limits : Limits) (entry : CodeBlock) (h : Host) :
    Option Report :=
  if limits.maxFrames ≤ h.depth then
    some (conclude (start p entry h) (some { fault := .frameLimit limits.maxFrames }))
  else
    (iterate p limits fuel (start p entry (h.push (.block entry.activation)))).map
      fun (s, failure) => conclude s failure

def run (fuel : Nat) (p : Program) (limits : Limits) (h : Host) : Option Report :=
  let refuse (text : String) : Option Report :=
    some ⟨.error { fault := .internal text }, 0, [], h⟩
  match p.verify with
  | .error defect => refuse defect.message
  | .ok () =>
    match p.entryBlock? with
    | none => refuse "program has no entry block"
    | some entry => runFrom fuel p limits entry h

end Machine

end BlockMachine
