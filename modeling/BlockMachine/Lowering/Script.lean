import BlockMachine.Lowering.Checks
import BlockMachine.Lowering.Draft
import Mathlib.Algebra.GroupWithZero.Nat

/-!
# Scripts
What lowering a graph does in turn, once it is settled where everything goes: which checks it makes,
which instructions it adds in between, and when a block is finished. A script is read off the graph
without lowering anything. Only the joining of a list makes checks after it has added instructions.
-/

namespace BlockMachine
set_option autoImplicit false

inductive Deed where
  | check (ob : Obligation)
  | emit (block : Label) (i : Instr)
  | finish (block : Label) (origin : BlockId) (instrs : Nat)
  deriving DecidableEq

namespace Deed

def obligation? : Deed → Option Obligation
  | .check ob => some ob
  | .emit _ _ | .finish _ _ _ => none

def event? : Deed → Option Lowering.Event
  | .check _ => none
  | .emit block i => some (.emitted block i)
  | .finish block origin instrs => some (.blockDone block origin instrs)

end Deed

/-- A placement with the spare slots that partial results go to, in the order in which they come up
in the whole graph. -/
structure Supply extends Placement where
  spare : Nat → Slot

structure Supply.Sound (s : Supply) : Prop where
  slots : Function.Injective s.slot
  spares : Function.Injective s.spare
  apart : ∀ o k, s.slot o ≠ s.spare k

namespace Node

variable (s : Supply) (label : Label)

def joinDeeds (n : Node) (result : OperandId) : Slot → Nat → List OperandId → List Deed
  | joined, _, [] =>
    [.check (.node n (.operand result)),
      .emit label (.assign (s.slot result) (s.slot result) joined)]
  | joined, k, part :: parts =>
    .check (.node n (.operand part)) :: .emit label (.binary .concat (s.spare k) joined (s.slot part))
      :: joinDeeds n result (s.spare k) (k + 1) parts

def deeds (k : Nat) (n : Node) : List Deed :=
  match n.action with
  | .concatList (first :: rest) result =>
    .check (.node n .supported) :: .check (.node n (.operand first))
      :: joinDeeds s label n result (s.slot first) k rest
  | action => n.duties.map .check ++ (action.code s.toPlacement []).map (.emit label)

def script : Nat → List Node → List Deed
  | _, [] => []
  | k, n :: nodes => n.deeds s label k ++ script (k + n.action.joints) nodes

end Node

namespace Graph

variable (g : Graph) (s : Supply)

def joints (b : BlockId) : Nat := ((g.nodes b).map (·.action.joints)).sum

def blockScript (k : Nat) (b : BlockId) : List Deed :=
  let deeds := Node.script s (s.label b) k (g.nodes b)
  deeds ++ [.finish (s.label b) b (deeds.filterMap Deed.event?).length]

def blockScripts : Nat → List BlockId → List Deed
  | _, [] => []
  | k, b :: bs => g.blockScript s k b ++ blockScripts (k + g.joints b) bs

/-- Each root is looked at, and then every block that it brings in is filled, in the order of the
labels. Of the known blocks all is done. -/
def script : List BlockId → List BlockId → List Deed
  | _, [] => []
  | known, root :: roots =>
    .check (.root root) ::
      (g.blockScripts s (known.map g.joints).sum ((g.discover known root).drop known.length)
        ++ script (g.discover known root) roots)

/-- The events are what is reported of the deeds up to the first check that is not met, and the
refusal is why it is not. -/
def StopsAt (r : Refusal) (deeds : List Deed) (events : List Lowering.Event) : Prop :=
  ∃ before ob after, deeds = before ++ .check ob :: after ∧
    (∀ o, .check o ∈ before → o.refusal? g = none) ∧ ob.refusal? g = some r ∧
    events = before.filterMap Deed.event?

end Graph

end BlockMachine
