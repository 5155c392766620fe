import BlockMachine.Machine.Reach

/-!
# Turns
A stack of frames, taken apart into its frames. A frame by itself runs with nothing below it and
nothing written; the frames of a stack run as each would by itself, one after the other, and what
they show is put together in that order.
-/

namespace BlockMachine
set_option autoImplicit false

def Frame.continuation? : Frame → Option String
  | .block _ => none
  | .continuation name => some name

/-- A failure as it is with blocks below the running one. A failure without a location has no call
stack. -/
def Failure.above (f : Failure) (below : List Label) : Failure :=
  { f with callStack := if f.location.isSome then below ++ f.callStack else f.callStack }

namespace Machine

/-- The state of a machine on top of another that is between frames: the frames of that one come
later, and what it has written and reported came before. -/
def State.atop (s below : State) : State :=
  { s with
    host := { s.host with
      pending := s.host.pending ++ below.host.pending
      sink := below.host.sink.after s.host.sink.taken }
    trail := s.trail ++ below.trail }

def alone (constants : Constants) (steps : Nat) (a : Activation) : State where
  running := some a
  host := { constants }
  steps := steps

structure Part where
  output : List UInt8 := []
  events : List Event := []
  steps : Nat
  failure : Option Failure := none

def State.part (s : State) : Part where
  output := s.host.sink.kept
  events := s.trail.reverse
  steps := s.steps

namespace Part

def andThen (first second : Part) : Part where
  output := first.output ++ second.output
  events := first.events ++ second.events
  steps := second.steps
  failure := second.failure

def closing (part : Part) : Event :=
  match part.failure with
  | none => .finished part.steps
  | some f => .failed part.steps f.fault.message

end Part

/-- Frames run from a count on, the top of the stack first, and show a part: each block shows what
it shows by itself, and each host function is called. Behind a block that fails nothing is run. -/
inductive InTurn (p : Program) (limits : Limits) (constants : Constants) :
    Nat → List Frame → Part → Prop where
  | done (steps : Nat) : InTurn p limits constants steps [] { steps }
  | call {steps : Nat} {name : String} {rest : List Frame} {part : Part} :
      InTurn p limits constants steps rest part →
      InTurn p limits constants steps (.continuation name :: rest)
        (Part.andThen { events := [.called name], steps } part)
  | block {steps : Nat} {a : Activation} {rest : List Frame} {last : State} {part : Part} :
      Halts p limits (alone constants steps a) last none →
      InTurn p limits constants last.steps rest part →
      InTurn p limits constants steps (.block a :: rest) (last.part.andThen part)
  | fail {steps : Nat} {a : Activation} {rest : List Frame} {last : State} {f : Failure} :
      Halts p limits (alone constants steps a) last (some f) →
      InTurn p limits constants steps (.block a :: rest)
        { last.part with failure := some (f.above { pending := rest : Host }.codes) }

/-- The machine is between frames: a part has been shown, and some frames are still ahead. -/
def between (s : State) (part : Part) (ahead : List Frame) : State where
  host := { s.host with pending := ahead, sink := s.host.sink.after part.output.reverse }
  steps := part.steps
  trail := part.events.reverse ++ s.trail

/-- A machine that began between frames is between two of them, or where one of them is by itself.
The frames before have shown their part, and the frames behind are still ahead. -/
inductive Amid (p : Program) (limits : Limits) (s : State) : State → Prop where
  | between {past ahead : List Frame} {part : Part} : s.host.pending = past ++ ahead →
      InTurn p limits s.host.constants s.steps past part → part.failure = none →
      Amid p limits s (between s part ahead)
  | inside {past ahead : List Frame} {part : Part} {a : Activation} {t : State} :
      s.host.pending = past ++ .block a :: ahead →
      InTurn p limits s.host.constants s.steps past part → part.failure = none →
      Reaches p limits (alone s.host.constants part.steps a) t → t.running ≠ none →
      Amid p limits s (t.atop (between s part ahead))

/-- A run on a host shows a part of its frames, and nothing besides its beginning and its end. -/
structure Report.Shows (report : Report) (h : Host) (opening : Event) (frames : List Frame)
    (part : Part) : Prop where
  result : report.result = part.failure.elim (.ok ()) .error
  output : report.host.sink.kept = h.sink.kept ++ part.output
  steps : report.steps = part.steps
  events : report.events = opening :: part.events ++ [part.closing]
  called : ∃ past ahead, frames = past ++ ahead ∧ report.called = past.filterMap Frame.continuation? ∧
    (part.failure = none → ahead = []) ∧
    (part.failure ≠ none → ∃ a rest, ahead = .block a :: rest)

end Machine

end BlockMachine
