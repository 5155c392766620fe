import BlockMachine.Code.Flow
import BlockMachine.Code.Listing
import BlockMachine.Machine.Course

/-!
# Traces
What a run reports, read as a walk through the blocks of its program. A frame begins at the first
instruction of its block. From an instruction without targets it goes on to the next one, and from
one with targets to the first instruction of a target. The step limit is asked at every instruction.
-/

namespace BlockMachine
set_option autoImplicit false

/-- The frame is a call back, or it is as a block of the program makes it. -/
def Frame.Fresh (p : Program) : Frame → Prop
  | .block a => ∃ b ∈ p.blocks, ∃ scope cameFrom, a = b.enter scope cameFrom
  | .continuation _ => True

/-- The blocks are shown as those that lead to a block: the line after the head of the block names
them in ascending order, or is left out if there are none. -/
structure Program.ShowsSources (p : Program) (b : CodeBlock) (sources : List Label) : Prop where
  printed : ∃ title count below, p.blockLines b = [Program.rule, title, count] ++
    (if sources = [] then [] else [" from: " ++ ", ".intercalate (sources.map Label.text)]) ++
    b.constants.map (fun c => s!" const r{c.slot} = {c.value.text}") ++ Program.rule :: below
  leads : ∀ l, l ∈ sources ↔ p.Leads l b.label
  ascending : sources.Pairwise (·.index < ·.index)

namespace Machine

structure Place where
  block : Label
  pc : Nat
  steps : Nat

namespace Place

def Holds (p : Program) (x : Place) (i : Option Instr) : Prop :=
  ∃ b, p.block? x.block = some b ∧ b.instrs[x.pc]? = i

def reached (x : Place) (i : Instr) : Event := .reached x.block x.pc i.mnemonic

def next (x : Place) : Place := { x with pc := x.pc + 1, steps := x.steps + 1 }

def jumpTo (x : Place) (target : Label) : Place := ⟨target, 0, x.steps + 1⟩

end Place

def opening (p : Program) (entry : CodeBlock) : Event :=
  .started entry.label p.blocks.length p.slotCount

def Event.isClosing : Event → Bool
  | .finished _ | .failed _ _ => true
  | .started _ _ _ | .reached _ _ _ | .transferred _ _ | .called _ | .warned _ => false

section

variable (p : Program) (limits : Limits)

inductive Move (x : Place) : List Event → Place → Prop where
  | next {i : Instr} (texts : List String) : x.Holds p (some i) → i.targets = [] →
      overLimit limits (x.steps + 1) = none →
      Move x (x.reached i :: texts.map .warned) x.next
  | jump {i : Instr} {target : Label} : x.Holds p (some i) → target ∈ i.targets →
      overLimit limits (x.steps + 1) = none →
      Move x [x.reached i, .transferred x.block target] (x.jumpTo target)

/-- The instruction at a place is not carried out: it is one too many, or it fails. -/
inductive Stop (x : Place) : List Event → Prop where
  | refused {i : Instr} : x.Holds p (some i) → overLimit limits (x.steps + 1) ≠ none →
      Stop x [x.reached i]
  | failed {i : Instr} (texts : List String) : x.Holds p (some i) → i.targets = [] →
      overLimit limits (x.steps + 1) = none → Stop x (x.reached i :: texts.map .warned)

inductive Path (x : Place) : List Event → Place → Prop where
  | refl : Path x [] x
  | tail {events more : List Event} {y z : Place} : Path x events y → Move p limits y more z →
      Path x (events ++ more) z

/-- Frames have run in turn, which has taken the count of instructions from one number to another:
each block from its first instruction to the end of the block that it has come to. -/
inductive Ran (m : Nat) : List Frame → List Event → Nat → Prop where
  | none : Ran m [] [] m
  | call {past : List Frame} {events : List Event} {n : Nat} (name : String) :
      Ran m past events n → Ran m (past ++ [.continuation name]) (events ++ [.called name]) n
  | block {past : List Frame} {events more : List Event} {n : Nat} {a : Activation} {y : Place} :
      Ran m past events n → Path p limits ⟨a.code, 0, n⟩ more y → y.Holds p none →
      Ran m (past ++ [.block a]) (events ++ more) y.steps

inductive Trace (frames : List Frame) : List Event → Prop where
  | between {past ahead : List Frame} {events : List Event} {n : Nat} : frames = past ++ ahead →
      Ran p limits 0 past events n → Trace frames events
  | inside {past ahead : List Frame} {events more : List Event} {n : Nat} {a : Activation}
      {y : Place} : frames = past ++ .block a :: ahead → Ran p limits 0 past events n →
      Path p limits ⟨a.code, 0, n⟩ more y → Trace frames (events ++ more)
  | stopped {past ahead : List Frame} {events more last : List Event} {n : Nat} {a : Activation}
      {y : Place} : frames = past ++ .block a :: ahead → Ran p limits 0 past events n →
      Path p limits ⟨a.code, 0, n⟩ more y → Stop p limits y last →
      Trace frames (events ++ more ++ last)

/-- What a run reports: how it began, a trace of its frames, and how it ended if it has come to
that. -/
def Traced (entry : CodeBlock) (h : Host) (events : List Event) : Prop :=
  ∃ body closing, events = opening p entry :: body ++ closing ∧
    Trace p limits (frames entry h) body ∧ closing.length ≤ 1 ∧ ∀ e ∈ closing, e.isClosing = true

inductive Reported (h : Host) : List Event → Prop where
  | ended {fuel : Nat} {report : Report} : run fuel p limits h = some report →
      Reported h report.events
  | underway {s : State} : Visits p limits h s → Reported h s.trail.reverse

end

end Machine

end BlockMachine
