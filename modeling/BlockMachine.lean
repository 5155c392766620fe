import BlockMachine.Graph.Reachable
import BlockMachine.Graph.Walk
import BlockMachine.Machine.Reach
import BlockMachine.Main
import BlockMachine.Proofs.Image.Exact
import BlockMachine.Proofs.Image.RoundTrip
import BlockMachine.Proofs.Code.SlotTable
import BlockMachine.Proofs.Image.Normal
import BlockMachine.Proofs.Image.Normalising
import BlockMachine.Proofs.Code.Verifier
import BlockMachine.Proofs.Outcome
import BlockMachine.Proofs.Machine.Safety
import BlockMachine.Proofs.Machine.Passage
import BlockMachine.Proofs.Machine.Transition
import BlockMachine.Lowering.Rendering
import BlockMachine.Proofs.Lowering.Growth
import BlockMachine.Proofs.Lowering.Blocks
import BlockMachine.Proofs.Lowering.Layout
import BlockMachine.Proofs.Lowering.WellFormed
import BlockMachine.Proofs.Lowering.Joining
import BlockMachine.Proofs.Lowering.Effects
import BlockMachine.Proofs.Lowering.Following
import BlockMachine.Proofs.Lowering.Simulation
import BlockMachine.Proofs.Lowering.Preservation
import BlockMachine.Proofs.Lowering.Budget
import BlockMachine.Lowering.Worklist
import BlockMachine.Proofs.Lowering.Termination
import BlockMachine.Proofs.Machine.Pending
import BlockMachine.Machine.Count
import BlockMachine.Proofs.Machine.Budget
import BlockMachine.Machine.Turns
import BlockMachine.Proofs.Machine.Atop
import BlockMachine.Proofs.Machine.Turns
import BlockMachine.Proofs.Machine.Output
import BlockMachine.Lowering.Transcript
import BlockMachine.Proofs.Lowering.Transcript
import BlockMachine.Proofs.Lowering.Allocation
import BlockMachine.Lowering.Checks
import BlockMachine.Proofs.Lowering.Checks
import BlockMachine.Proofs.Lowering.Refusals
import BlockMachine.Lowering.Renaming
import BlockMachine.Proofs.Lowering.Renaming
import BlockMachine.Machine.Extension
import BlockMachine.Proofs.Machine.Extension
import BlockMachine.Proofs.Lowering.Roots
import BlockMachine.Machine.Session
import BlockMachine.Proofs.Machine.Session
import BlockMachine.Cli.Laws
import BlockMachine.Proofs.Cli.Directory
import BlockMachine.Proofs.Cli.Emission
import BlockMachine.Proofs.Text.Decimal
import BlockMachine.Value.Spelling
import BlockMachine.Proofs.Text.Run
import BlockMachine.Proofs.Value.Spelling
import BlockMachine.Proofs.Value.NotInteger
import BlockMachine.Proofs.Value.Equality
import BlockMachine.Proofs.Text.Form
import BlockMachine.Code.Listed
import BlockMachine.Proofs.Code.LineText
import BlockMachine.Proofs.Code.Listing
import BlockMachine.Machine.Footprint
import BlockMachine.Proofs.Machine.Footprint
import BlockMachine.Code.Flow
import BlockMachine.Machine.Course
import BlockMachine.Proofs.Machine.Course
import BlockMachine.Machine.Blame
import BlockMachine.Proofs.Machine.Blame
import BlockMachine.Proofs.Machine.Counter
import BlockMachine.Proofs.Code.Flow
import BlockMachine.Proofs.Machine.Termination
import BlockMachine.Code.Requirement
import BlockMachine.Proofs.Code.FirstDefect
import BlockMachine.Machine.Trace
import BlockMachine.Proofs.Code.Predecessors
import BlockMachine.Proofs.Machine.Trace
import BlockMachine.Lowering.Script
import BlockMachine.Proofs.Lowering.Stopping
import BlockMachine.Proofs.Lowering.Script
import BlockMachine.Lowering.Stage
import BlockMachine.Proofs.Lowering.Stage
import BlockMachine.Proofs.Lowering.Chain
import BlockMachine.Machine.Naming
import BlockMachine.Proofs.Machine.Naming
import BlockMachine.Graph.Arena
import BlockMachine.Proofs.Graph.Arena
import BlockMachine.Machine.Writer
import BlockMachine.Proofs.Machine.Writer
