/-!
# Sinks
Where output goes: bytes in memory, as many as there is room for. Writing a sequence repeats single
writes, of which each takes what fits.
-/

namespace BlockMachine
set_option autoImplicit false

inductive WhenFull where
  | fail (reason : String := "sink full")
  | takeNothing
  deriving DecidableEq

def WhenFull.reason : WhenFull → String
  | .fail reason => reason
  | .takeNothing => "failed to write whole buffer"

structure Sink where
  /-- The bytes that were taken, newest first. -/
  taken : List UInt8 := []
  /-- How many more bytes fit; without it, any number does. -/
  room : Option Nat := none
  whenFull : WhenFull := .takeNothing
  flushFails : Bool := false
  flushReason : String := "flush failed"
  deriving DecidableEq

namespace Sink

def kept (s : Sink) : List UInt8 := s.taken.reverse

def fitting (s : Sink) (n : Nat) : Nat :=
  match s.room with
  | some r => min r n
  | none => n

def refusal? (s : Sink) (bytes : List UInt8) : Option String :=
  match s.whenFull with
  | .fail reason => if s.fitting bytes.length = 0 ∧ bytes ≠ [] then some reason else none
  | .takeNothing => none

def write (s : Sink) (bytes : List UInt8) : Except String (Nat × Sink) :=
  match s.refusal? bytes with
  | some reason => .error reason
  | none =>
    let n := s.fitting bytes.length
    .ok (n, { s with taken := (bytes.take n).reverseAux s.taken, room := s.room.map (· - n) })

/-- Writes all bytes. On failure, the reason comes with the sink that holds what was taken. -/
def writeAll (s : Sink) (bytes : List UInt8) : Option String × Sink :=
  if _h : bytes = [] then (none, s)
  else
    match s.write bytes with
    | .error reason => (some reason, s)
    | .ok (0, s') => (some "failed to write whole buffer", s')
    | .ok (n + 1, s') => s'.writeAll (bytes.drop (n + 1))
termination_by bytes.length
decreasing_by
  have := List.length_pos_iff.mpr _h
  simp only [List.length_drop]
  omega

def flush (s : Sink) : Option String := if s.flushFails then some s.flushReason else none

def Fits (s : Sink) (n : Nat) : Prop := ∀ r, s.room = some r → n ≤ r

def after (s : Sink) (more : List UInt8) : Sink :=
  { s with taken := more ++ s.taken, room := s.room.map (· - more.length) }

end Sink

end BlockMachine
