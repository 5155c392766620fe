import BlockMachine.Machine.Run

/-!
# Writers
Anything that bytes can be written to. One write takes some of the bytes it is given, or fails, and
which of the two may depend on all that was written before. A write that is interrupted is repeated,
and counts as one with the write that follows.
-/

namespace BlockMachine
set_option autoImplicit false

structure Writer (σ : Type) where
  write : σ → (bytes : List UInt8) → Except String (Fin (bytes.length + 1)) × σ
  flush : σ → Option String

/-- What became of sequences that were offered one after another, up to the first that was not taken
whole. -/
structure Offered (σ : Type) where
  whole : Nat
  refusal : Option String
  left : σ

structure Answers where
  whole : Nat
  refusal : Option String
  flush : Option String

namespace Offered

variable {σ : Type}

def answers (flush : σ → Option String) (o : Offered σ) : Answers :=
  ⟨o.whole, o.refusal, flush o.left⟩

def succ (o : Offered σ) : Offered σ := { o with whole := o.whole + 1 }

end Offered

def offer {σ : Type} (writeAll : σ → List UInt8 → Option String × σ) (s : σ) :
    List (List UInt8) → Offered σ
  | [] => ⟨0, none, s⟩
  | bytes :: rest =>
    match writeAll s bytes with
    | (none, s) => (offer writeAll s rest).succ
    | (some reason, s) => ⟨0, some reason, s⟩

namespace Writer

variable {σ : Type}

/-- Writes all bytes. Those that were taken are put behind the ones that were before. -/
def writeAll (w : Writer σ) (s : List UInt8 × σ) (bytes : List UInt8) :
    Option String × List UInt8 × σ :=
  if _h : bytes = [] then (none, s)
  else
    match w.write s.2 bytes with
    | (.error reason, t) => (some reason, s.1, t)
    | (.ok ⟨0, _⟩, t) => (some "failed to write whole buffer", s.1, t)
    | (.ok ⟨n + 1, _⟩, t) => w.writeAll (s.1 ++ bytes.take (n + 1), t) (bytes.drop (n + 1))
termination_by bytes.length
decreasing_by
  have := List.length_pos_iff.mpr _h
  simp only [List.length_drop]
  omega

def offered (w : Writer σ) (s : σ) : List (List UInt8) → Offered (List UInt8 × σ) :=
  offer w.writeAll ([], s)

def answers (w : Writer σ) (s : σ) (sequences : List (List UInt8)) : Answers :=
  (w.offered s sequences).answers fun t => w.flush t.2

end Writer

namespace Sink

def offered (k : Sink) : List (List UInt8) → Offered Sink := offer Sink.writeAll k

def answers (k : Sink) (sequences : List (List UInt8)) : Answers :=
  (k.offered sequences).answers Sink.flush

end Sink

namespace Machine

def State.onto (k : Sink) (s : State) : State := { s with host.sink := k }

def Transition.onto (k : Sink) : Transition → Transition
  | .next s => .next (s.onto k)
  | .halt s failure => .halt (s.onto k) failure

def Report.onto (k : Sink) (r : Report) : Report := { r with host.sink := k }

/-- What there is about a transition that depends on the sink. -/
inductive Asks (act : Sink → Transition) : Prop where
  | nothing (t : Transition) (h : ∀ k, act k = t.onto k)
  | sequence (bytes : List UInt8) (next stopped : State) (f : String → Failure)
    (hNext : ∀ k k', k.writeAll bytes = (none, k') → act k = .next (next.onto k'))
    (hStopped : ∀ k k' reason, k.writeAll bytes = (some reason, k') →
      act k = .halt (stopped.onto k') (some (f reason)))

end Machine

end BlockMachine
