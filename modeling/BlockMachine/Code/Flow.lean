import BlockMachine.Code.Program
import Mathlib.Algebra.GroupWithZero.Nat
import Mathlib.Logic.Relation

/-!
# Control flow
The graph of the blocks of a program: a block leads to the targets of all its instructions, whether
control ever gets to them or not.
-/

namespace BlockMachine.Program
set_option autoImplicit false

def Leads (p : Program) (l target : Label) : Prop :=
  ∃ b, p.block? l = some b ∧ ∃ i ∈ b.instrs, target ∈ i.targets

def Within (p : Program) (roots : List Label) (l : Label) : Prop :=
  ∃ r ∈ roots, Relation.ReflTransGen p.Leads r l

/-- No block that the roots lead to leads back to itself. -/
def Acyclic (p : Program) (roots : List Label) : Prop :=
  ∀ l, p.Within roots l → ¬ Relation.TransGen p.Leads l l

def size (p : Program) (l : Label) : Nat := ((p.block? l).map (·.instrs.length)).getD 0

open Classical in
noncomputable def extent (p : Program) (roots : List Label) : Nat :=
  ((p.blocks.filter fun b => p.Within roots b.label).map (·.instrs.length)).sum

end BlockMachine.Program
