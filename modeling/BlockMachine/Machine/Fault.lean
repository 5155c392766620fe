import BlockMachine.Code.Instr
import BlockMachine.Value.Coercion

/-!
# Run failures
What goes wrong in a run, and where. A fault names the place of an operand: a slot when it arises
in a running machine. A failure adds the instruction it arose at, if there was one, and the blocks
that were active or pending, the running block last.
-/

namespace BlockMachine
set_option autoImplicit false

inductive Fault (place : Type) where
  | coercion (mnemonic : String) (operand : place) (source target : ValueType)
      (reason : NotInteger)
  | overflow (mnemonic : String) (left right : Int64)
  | undefinedConstant (name : String) (qualified : Option String)
  | stepLimit (steps : Nat)
  | frameLimit (frames : Nat)
  | output (reason : String)
  | internal (text : String)
  deriving DecidableEq

namespace Fault

def alsoTried : Option String → String
  | some qualified => s!" (also tried '{qualified}')"
  | none => ""

def message : Fault Slot → String
  | .coercion mnemonic slot source target reason =>
    s!"type error: cannot use {source.name} in r{slot} as {target.name} for {mnemonic}: "
      ++ reason.message
  | .overflow mnemonic left right =>
    s!"integer overflow in {mnemonic}: {Decimal.text left} and {Decimal.text right}"
  | .undefinedConstant name qualified => s!"undefined constant '{name}'{alsoTried qualified}"
  | .stepLimit steps => s!"execution step limit exceeded ({steps})"
  | .frameLimit frames => s!"frame stack limit exceeded ({frames})"
  | .output reason => s!"output error: {reason}"
  | .internal text => s!"internal error: {text}"

def chain (f : Fault Slot) : List String :=
  f.message :: match f with
    | .coercion _ _ _ _ reason => [reason.message]
    | .output reason => [reason]
    | _ => []

def isInternal {place : Type} : Fault place → Bool
  | .internal _ => true
  | _ => false

end Fault

structure Location where
  block : Label
  pc : Nat
  mnemonic : String
  line : Option Nat
  cameFrom : Option Label
  deriving DecidableEq

def Location.text (l : Location) : String :=
  let source := match l.line with
    | some n => s!", line {n}"
    | none => ""
  let origin := match l.cameFrom with
    | some b => s!", entered from {b.text}"
    | none => ""
  s!"{l.block.text} pc {l.pc} ({l.mnemonic}){source}{origin}"

structure Failure where
  fault : Fault Slot
  location : Option Location := none
  /-- The bottom of the stack first. -/
  callStack : List Label := []
  deriving DecidableEq

namespace Failure

def stackLines : Nat → List Label → List String
  | _, [] => []
  | i, l :: ls => s!"\n    {i}: {l.text}" :: stackLines (i + 1) ls

def message (f : Failure) : String :=
  let location := match f.location with
    | some l => s!"\n  at {l.text}"
    | none => ""
  let stack := if f.callStack.isEmpty then ""
    else "\n  call stack:" ++ String.join (stackLines 0 f.callStack.reverse)
  "runtime error: " ++ f.fault.message ++ location ++ stack

end Failure

end BlockMachine
