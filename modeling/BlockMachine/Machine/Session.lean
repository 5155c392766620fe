import BlockMachine.Machine.Run

/-!
# Sessions
One machine and one host, used again and again: programs run one after another, and constants are
defined in between. What a command is answered in a session is set against what it would be
answered by itself.
-/

namespace BlockMachine.Machine
set_option autoImplicit false

inductive Command where
  | define (name : String) (value : Value)
  | run (p : Program)

structure Account where
  result : Except Failure Unit
  output : List UInt8
  warnings : List String
  called : List String
  events : List Event
  steps : Nat
  depth : Nat

inductive Reply where
  | defined (result : Except AlreadyDefined Unit)
  | ran (account : Account)

structure Session where
  limits : Limits
  /-- How many instructions the last run reached. Each run counts from zero. -/
  steps : Nat := 0
  host : Host

namespace Session

def fresh (limits : Limits) (constants : Constants) : Session where
  limits := limits
  host := { constants }

def perform (fuel : Nat) (s : Session) : Command → Option (Reply × Session)
  | .define name value =>
    match s.host.define name value with
    | .ok host => some (.defined (.ok ()), { s with host })
    | .error e => some (.defined (.error e), s)
  | .run p => do
    let r ← run fuel p s.limits s.host
    let after := { s with steps := r.steps, host := r.host }
    return (.ran {
      result := r.result
      output := after.host.sink.kept.drop s.host.sink.kept.length
      warnings := r.warnings
      called := r.called
      events := r.events
      steps := after.steps
      depth := after.host.depth }, after)

def play (fuel : Nat) : Session → List Command → Option (List Reply × Session)
  | s, [] => some ([], s)
  | s, c :: cs => do
    let (reply, s) ← s.perform fuel c
    let (replies, s) ← s.play fuel cs
    return (reply :: replies, s)

end Session

namespace Command

def constants (before : Constants) : Command → Constants
  | .define name value =>
    match before.define name value with
    | .ok after => after
    | .error _ => before
  | .run _ => before

/-- Each command by itself: a fresh machine is told it, on a fresh host that has the constants
defined so far. -/
def apart (fuel : Nat) (limits : Limits) : Constants → List Command → Option (List Reply)
  | _, [] => some []
  | before, c :: cs => do
    let (reply, _) ← (Session.fresh limits before).perform fuel c
    let replies ← apart fuel limits (c.constants before) cs
    return reply :: replies

end Command

def Reply.output : Reply → List UInt8
  | .defined _ => []
  | .ran account => account.output

end BlockMachine.Machine
