import BlockMachine.Image.Program
import BlockMachine.Lowering.Basic
import BlockMachine.Machine.Run

/-!
# From graph to output
Lowering, verifying and running in one go, and the problems that can come up on the way.
-/

namespace BlockMachine
set_option autoImplicit false

inductive Problem where
  | refused (r : Refusal)
  | defective (d : Defect)
  | failed (f : Failure)
  | malformed (m : Malformed)
  deriving DecidableEq

namespace Problem

def stage : Problem → String
  | .refused _ => "compile"
  | .defective _ => "verify"
  | .failed _ => "runtime"
  | .malformed _ => "image"

def message : Problem → String
  | .refused r => r.message
  | .defective d => d.message
  | .failed f => f.message
  | .malformed m => "image error: " ++ m.message

end Problem

/-- Lowers a graph from its own roots, verifies the program and runs it without limits on steps.
The host shows what the run left behind, whatever the outcome. -/
def lowerAndRun (fuel : Nat) (g : Graph) (h : Host) : Option (Except Problem Program × Host) :=
  match g.lower g.roots with
  | .error r => some (.error (.refused r), h)
  | .ok p =>
    match p.verify with
    | .error d => some (.error (.defective d), h)
    | .ok () =>
      (Machine.run fuel p {} h).map fun report =>
        match report.result with
        | .ok () => (.ok p, report.host)
        | .error f => (.error (.failed f), report.host)

end BlockMachine
