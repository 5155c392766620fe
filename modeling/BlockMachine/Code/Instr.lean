import BlockMachine.Value.Operator

/-!
# Instructions
An instruction reads and writes numbered slots of the running scope, or moves control to another
block by its label.
-/

namespace BlockMachine
set_option autoImplicit false

abbrev Slot := Nat

structure Label where
  index : Nat
  deriving DecidableEq, Inhabited

def Label.text (l : Label) : String := s!"block{l.index}"

inductive Instr where
  | echo (value : Slot)
  | assign (result var expr : Slot)
  | binary (op : Operator) (result left right : Slot)
  | constFetch (result name : Slot) (qualified : Option Slot)
  | jump (target : Label)
  | branch (cond : Slot) (ifTrue ifFalse : Label)
  deriving DecidableEq

namespace Instr

def mnemonic : Instr → String
  | .echo _ => "ECHO"
  | .assign _ _ _ => "ASSIGN"
  | .binary op _ _ _ => op.mnemonic
  | .constFetch _ _ _ => "CONST_FETCH"
  | .jump _ => "JUMP"
  | .branch _ _ _ => "JUMP_IF"

def slots : Instr → List Slot
  | .echo value => [value]
  | .assign result var expr => [result, var, expr]
  | .binary _ result left right => [result, left, right]
  | .constFetch result name qualified => [result, name] ++ qualified.toList
  | .jump _ => []
  | .branch cond _ _ => [cond]

def targets : Instr → List Label
  | .jump target => [target]
  | .branch _ ifTrue ifFalse => [ifTrue, ifFalse]
  | _ => []

end Instr

end BlockMachine
