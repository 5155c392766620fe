import BlockMachine.Code.Instr
import BlockMachine.Log

/-!
# Run events
What a run reports about itself.
-/

namespace BlockMachine.Machine
set_option autoImplicit false

inductive Event where
  | started (entry : Label) (blocks slots : Nat)
  /-- Before an instruction, also one that the step limit refuses. -/
  | reached (block : Label) (pc : Nat) (mnemonic : String)
  | transferred (source target : Label)
  | called (continuation : String)
  | warned (text : String)
  | finished (steps : Nat)
  | failed (steps : Nat) (fault : String)
  deriving DecidableEq

namespace Event

def entry : Event → LogEntry
  | .started entry blocks slots =>
    ⟨.debug, "run start",
      [("entry", entry.text), ("blocks", toString blocks), ("slots", toString slots)]⟩
  | .reached block pc mnemonic =>
    ⟨.trace, "", [("block", block.text), ("pc", toString pc), ("op", mnemonic)]⟩
  | .transferred source target =>
    ⟨.debug, "transfer", [("from", source.text), ("to", target.text)]⟩
  | .called _ => ⟨.trace, "continuation", []⟩
  | .warned text => ⟨.warn, "leading-numeric string used as integer", [("value", text)]⟩
  | .finished steps => ⟨.debug, "run finished", [("steps", toString steps)]⟩
  | .failed steps fault => ⟨.debug, "run failed", [("steps", toString steps), ("error", fault)]⟩

def warning? : Event → Option String
  | .warned text => some text
  | _ => none

def continuation? : Event → Option String
  | .called name => some name
  | _ => none

end Event

end BlockMachine.Machine
