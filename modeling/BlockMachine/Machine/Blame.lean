import BlockMachine.Machine.Course
import BlockMachine.Machine.Footprint

/-!
# Blame
What a failure says, and what it has to say: the instruction that failed and where it stands, which
frames were there, and what was wrong with the operands.
-/

namespace BlockMachine
set_option autoImplicit false

namespace Scope

def HoldsInt (scope : Scope) (slot : Slot) (n : Int64) : Prop :=
  ∃ v r, scope[slot]? = some v ∧ v.toInt = .ok r ∧ r.value = n

def HoldsNoInt (scope : Scope) (slot : Slot) (reason : NotInteger) : Prop :=
  ∃ bytes, scope[slot]? = some (.string bytes) ∧ (Value.string bytes).toInt = .error reason

end Scope

/-- The instruction is to blame for the fault. An operand is to blame for not being an integer only
if the operands before it are. -/
inductive Instr.Blamed (h : Host) (scope : Scope) (i : Instr) : Fault Slot → Prop where
  | left {op : Operator} {result left right : Slot} {reason : NotInteger} :
      i = .binary op result left right → scope.HoldsNoInt left reason →
      Blamed h scope i (.coercion i.mnemonic left .string .integer reason)
  | right {op : Operator} {result left right : Slot} {m : Int64} {reason : NotInteger} :
      i = .binary op result left right → scope.HoldsInt left m → scope.HoldsNoInt right reason →
      Blamed h scope i (.coercion i.mnemonic right .string .integer reason)
  | overflow {f : Arithmetic} {result left right : Slot} {m n : Int64} :
      i = .binary (.arithmetic f) result left right → scope.HoldsInt left m →
      scope.HoldsInt right n → f.apply m n = none → Blamed h scope i (.overflow i.mnemonic m n)
  | undefinedConstant {result name : Slot} {qualified : Option Slot} {v : Value} :
      i = .constFetch result name qualified → scope[name]? = some v →
      i.value? h.constants scope = none →
      Blamed h scope i
        (.undefinedConstant v.display (qualified.bind fun q => (scope[q]?).map Value.display))
  | output {slot : Slot} {v : Value} {reason : String} : i = .echo slot → scope[slot]? = some v →
      (h.sink.writeAll v.toBytes).1 = some reason → Blamed h scope i (.output reason)

namespace Machine

/-- The run of a program on a host comes to an instruction and fails there, and not internally. -/
structure FailsAt (p : Program) (limits : Limits) (h : Host) (s : State) (a : Activation)
    (b : CodeBlock) (i : Instr) (f : Failure) : Prop where
  visits : Visits p limits h s
  here : s.At p a b (some i)
  halts : ∃ t, step p limits s = .halt t (some f)
  external : f.fault.isInternal = false

/-- The failure points at the instruction: at its place in the running block, with its line. The
block is where the frame has come from its first activation, by way of the blocks before. -/
structure Located (p : Program) (limits : Limits) (h : Host) (s : State) (a : Activation)
    (b : CodeBlock) (i : Instr) (f : Failure) : Prop where
  location : ∃ line, b.lines[a.pc]? = some line ∧ f.location = some {
    block := a.code
    pc := a.pc
    mnemonic := i.mnemonic
    line := line
    cameFrom := a.cameFrom }
  cameFrom : ∃ entry first before n, p.entryBlock? = some entry ∧
    .block first :: s.host.pending <:+ frames entry h ∧
    Course p limits h first (a.code :: before) n s ∧ a.cameFrom = before.head?.or first.cameFrom
  callStack : f.callStack = (s.host.pending.filterMap Frame.code?).reverse ++ [a.code]
  fault : (∃ m, limits.maxSteps = some m ∧ m < s.steps + 1 ∧ f.fault = .stepLimit m) ∨
    i.Blamed s.host a.scope f.fault

end Machine

end BlockMachine
