import BlockMachine.Machine.Evaluation
import BlockMachine.Machine.Event
import BlockMachine.Machine.Host

/-!
# Steps
One transition of a running machine. An instruction first computes its effect from the scope and
the constants; the effect then changes the scope, writes output, or replaces the running block.
-/

namespace BlockMachine
set_option autoImplicit false

namespace Scope

def read (scope : Scope) (s : Slot) : Eval Slot Value :=
  match scope[s]? with
  | some v => return v
  | none => throw (.internal s!"read of r{s} outside scope of {scope.size}")

def write (scope : Scope) (s : Slot) (v : Value) : Except (Fault Slot) Scope :=
  if s < scope.size then .ok (scope.setIfInBounds s v)
  else .error (.internal s!"write of r{s} outside scope of {scope.size}")

def writeAll : Scope → List (Slot × Value) → Except (Fault Slot) Scope
  | scope, [] => .ok scope
  | scope, (s, v) :: rest => do writeAll (← write scope s v) rest

end Scope

def Instr.effect (constants : Constants) (scope : Scope) : Instr → Eval Slot (Effect Slot Label)
  | .echo value => return .output (← Scope.read scope value).toBytes
  | .assign result var expr => do
    let v ← Scope.read scope expr
    return .store [(var, v), (result, v)]
  | .binary op result left right =>
    return .store [(result, ← op.eval (Scope.read scope) left right)]
  | .constFetch result name qualified =>
    return .store [(result, ← fetchConstant constants.lookup (Scope.read scope) name qualified)]
  | .jump target => return .transfer target
  | .branch cond ifTrue ifFalse =>
    return .transfer (if (← Scope.read scope cond).toBool then ifTrue else ifFalse)

structure Limits where
  maxSteps : Option Nat := none
  maxFrames : Nat := 10000
  deriving DecidableEq

namespace Machine

structure State where
  running : Option Activation := none
  host : Host
  steps : Nat := 0
  /-- What was reported so far, newest first. -/
  trail : List Event := []
  deriving DecidableEq

inductive Transition where
  | next (s : State)
  | halt (s : State) (failure : Option Failure)
  deriving DecidableEq

namespace State

def report (s : State) (e : Event) : State := { s with trail := e :: s.trail }

def warn (s : State) (texts : List String) : State :=
  { s with trail := texts.reverse.map .warned ++ s.trail }

@[simp] theorem report_running (s : State) (e : Event) : (s.report e).running = s.running := rfl

@[simp] theorem report_host (s : State) (e : Event) : (s.report e).host = s.host := rfl

@[simp] theorem report_steps (s : State) (e : Event) : (s.report e).steps = s.steps := rfl

@[simp] theorem report_trail (s : State) (e : Event) : (s.report e).trail = e :: s.trail := rfl

@[simp] theorem warn_running (s : State) (texts : List String) :
    (s.warn texts).running = s.running := rfl

@[simp] theorem warn_host (s : State) (texts : List String) : (s.warn texts).host = s.host := rfl

@[simp] theorem warn_steps (s : State) (texts : List String) :
    (s.warn texts).steps = s.steps := rfl

@[simp] theorem warn_trail (s : State) (texts : List String) :
    (s.warn texts).trail = texts.reverse.map .warned ++ s.trail := rfl

def failure (s : State) (b : CodeBlock) (a : Activation) (fault : Fault Slot) : Failure where
  fault := fault
  location := some {
    block := b.label
    pc := a.pc
    mnemonic := (b.instrs[a.pc]?.map Instr.mnemonic).getD "<end>"
    line := b.line a.pc
    cameFrom := a.cameFrom }
  callStack := s.host.codes ++ [b.label]

end State

/-- The counter is a natural number. That it is one of 64 bits makes no difference to a run that
reaches fewer than two to the power 64 instructions, which every run is assumed to do. -/
def overLimit (limits : Limits) (steps : Nat) : Option (Fault Slot) :=
  match limits.maxSteps with
  | some m => if m < steps then some (.stepLimit m) else none
  | none => none

def perform (p : Program) (s : State) (b : CodeBlock) (a : Activation) :
    Effect Slot Label → Transition
  | .store writes =>
    match a.scope.writeAll writes with
    | .ok scope => .next { s with running := some { a with scope, pc := a.pc + 1 } }
    | .error fault => .halt s (some (s.failure b a fault))
  | .output bytes =>
    match s.host.sink.writeAll bytes with
    | (none, sink) =>
      .next { s with running := some { a with pc := a.pc + 1 }, host.sink := sink }
    | (some reason, sink) =>
      .halt { s with host.sink := sink } (some (s.failure b a (.output reason)))
  | .transfer target =>
    match p.block? target with
    | some next =>
      .next { s.report (.transferred a.code target) with
        running := some (next.enter a.scope (some a.code)) }
    | none =>
      .halt s (some (s.failure b a (.internal s!"{target.text} does not exist")))

def execute (p : Program) (limits : Limits) (s : State) (b : CodeBlock) (a : Activation)
    (i : Instr) : Transition :=
  let s := { s.report (.reached a.code a.pc i.mnemonic) with steps := s.steps + 1 }
  match overLimit limits s.steps with
  | some fault => .halt s (some (s.failure b a fault))
  | none =>
    match i.effect s.host.constants a.scope [] with
    | .ok effect warnings => perform p (s.warn warnings) b a effect
    | .error fault warnings => .halt (s.warn warnings) (some (s.failure b a fault))

def resume (s : State) : Transition :=
  match s.host.pending with
  | [] => .halt s none
  | .continuation name :: rest =>
    .next { s.report (.called name) with host.pending := rest }
  | .block a :: rest => .next { s with running := some a, host.pending := rest }

def step (p : Program) (limits : Limits) (s : State) : Transition :=
  match s.running with
  | none => resume s
  | some a =>
    match p.block? a.code with
    | none => .halt s (some { fault := .internal s!"{a.code.text} does not exist" })
    | some b =>
      match b.instrs[a.pc]? with
      | none => .next { s with running := none }
      | some i => execute p limits s b a i

end Machine

end BlockMachine
