import BlockMachine.Graph.Basic
import BlockMachine.Machine.Constants
import BlockMachine.Machine.Evaluation

/-!
# Walking a graph
The meaning of a graph without code: a walk holds a value for every operand and does the nodes of
one block in order, then goes on in the block that a jump names. Walks count steps as a machine
does, a list of parts one for each part.
-/

namespace BlockMachine
set_option autoImplicit false

abbrev Valuation := OperandId → Value

namespace Valuation

def unknown : Valuation := fun _ => .unknown

def set (v : Valuation) (o : OperandId) (value : Value) : Valuation :=
  fun x => if x = o then value else v x

def setAll (v : Valuation) (writes : List (OperandId × Value)) : Valuation :=
  writes.foldl (fun v w => v.set w.1 w.2) v

def load (g : Graph) (v : Valuation) : Valuation := fun o =>
  match g.operand? o with
  | some (.literal l) => l.value?.getD (v o)
  | _ => v o

def read (v : Valuation) (o : OperandId) : Eval OperandId Value := return v o

end Valuation

namespace Action

def effect (constants : Constants) (v : Valuation) :
    Action → Eval OperandId (Effect OperandId BlockId)
  | .binary op left right result =>
    match op.operator? with
    | some op => return .store [(result, ← op.eval v.read left right)]
    | none => throw (.internal op.typeName)
  | .assign var expr result => return .store [(var, v expr), (result, v expr)]
  | .concatList [part] result => return .store [(result, v part)]
  | .concatList parts result =>
    return .store [(result, .string (parts.flatMap fun o => (v o).toBytes))]
  | .constFetch name qualified result =>
    return .store [(result, ← fetchConstant constants.lookup v.read name qualified)]
  | .jump target => return .transfer target
  | .branch cond ifTrue ifFalse => return .transfer (if (v cond).toBool then ifTrue else ifFalse)
  | .echo expr => return .output (v expr).toBytes
  | a@(.call _ _ _) | a@(.declare _ _) | a@(.ret _) => throw (.internal a.typeName)

def cost : Action → Nat
  | .concatList parts _ => parts.length
  | _ => 1

end Action

namespace Walk

structure State where
  valuation : Valuation
  rest : List Node
  output : List UInt8 := []
  warnings : List String := []
  steps : Nat := 0

inductive Transition where
  | next (s : State)
  | halt (s : State) (fault : Option (Fault OperandId))

def enter (g : Graph) (s : State) (b : BlockId) : Transition :=
  match g.block? b with
  | some nodes => .next { s with valuation := s.valuation.load g, rest := nodes }
  | none => .halt s (some (.internal s!"{b.text} is not in the graph"))

def perform (g : Graph) (s : State) : Effect OperandId BlockId → Transition
  | .store writes => .next { s with valuation := s.valuation.setAll writes }
  | .output bytes => .next { s with output := s.output ++ bytes }
  | .transfer target => enter g s target

def step (g : Graph) (constants : Constants) (maxSteps : Option Nat) (s : State) : Transition :=
  match s.rest with
  | [] => .halt s none
  | node :: rest =>
    let s := { s with rest, steps := s.steps + node.action.cost }
    match maxSteps.filter (· < s.steps) with
    | some m => .halt s (some (.stepLimit m))
    | none =>
      match node.action.effect constants s.valuation [] with
      | .ok effect warnings => perform g { s with warnings := s.warnings ++ warnings } effect
      | .error fault warnings =>
        .halt { s with warnings := s.warnings ++ warnings } (some fault)

def iterate (g : Graph) (constants : Constants) (maxSteps : Option Nat) :
    Nat → State → Option (State × Option (Fault OperandId))
  | 0, _ => none
  | fuel + 1, s =>
    match step g constants maxSteps s with
    | .next s => iterate g constants maxSteps fuel s
    | .halt s fault => some (s, fault)

def run (fuel : Nat) (g : Graph) (constants : Constants) (maxSteps : Option Nat) (b : BlockId) :
    Option (State × Option (Fault OperandId)) :=
  match enter g { valuation := Valuation.unknown, rest := [] } b with
  | .next s => iterate g constants maxSteps fuel s
  | .halt s fault => some (s, fault)

inductive Visits (g : Graph) (constants : Constants) (maxSteps : Option Nat) (b : BlockId) :
    State → Prop where
  | enter {s : State} : enter g { valuation := Valuation.unknown, rest := [] } b = .next s →
      Visits g constants maxSteps b s
  | step {s t : State} : Visits g constants maxSteps b s → step g constants maxSteps s = .next t →
      Visits g constants maxSteps b t

/-- More steps are needed than the given number: a walk without limit comes to a node whose cost
goes over it. -/
def Exceeds (g : Graph) (constants : Constants) (b : BlockId) (m : Nat) : Prop :=
  ∃ s node rest, Visits g constants none b s ∧ s.rest = node :: rest ∧
    m < s.steps + node.action.cost

end Walk

end BlockMachine
