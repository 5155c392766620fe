import BlockMachine.Machine.Constants
import BlockMachine.Machine.Frame
import BlockMachine.Machine.Sink

/-!
# Hosts
What outlives a run: the frames that are still to be run, the constants, and the output.
-/

namespace BlockMachine
set_option autoImplicit false

structure Host where
  /-- The top of the stack first. -/
  pending : List Frame := []
  constants : Constants := {}
  sink : Sink := {}
  deriving DecidableEq

namespace Host

def depth (h : Host) : Nat := h.pending.length

def codes (h : Host) : List Label := (h.pending.filterMap Frame.code?).reverse

def push (h : Host) (f : Frame) : Host := { h with pending := f :: h.pending }

def pop (h : Host) : Option Frame × Host := (h.pending.head?, { h with pending := h.pending.tail })

def clear (h : Host) : Host := { h with pending := [] }

def define (h : Host) (name : String) (value : Value) : Except AlreadyDefined Host :=
  return { h with constants := ← h.constants.define name value }

end Host

end BlockMachine
