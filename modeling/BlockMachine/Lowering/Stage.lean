import BlockMachine.Lowering.Basic
import BlockMachine.Machine.Reach
import Mathlib.Logic.Relation

/-!
# Stages of a lowering
Lowering changes its draft in a few ways only, one at a time. The drafts that it comes through are
those that such steps make of the empty draft, and what holds of all of them can be said without
the graph's blocks.
-/

namespace BlockMachine
set_option autoImplicit false

namespace Lowering

variable (g : Graph)

inductive Step : Draft → Draft → Prop where
  | label {d d' : Draft} {b : BlockId} {l : Label} : labelFor g b d = .ok l d' → Step d d'
  | start {d d' : Draft} {l : Label} {origin : BlockId} :
      beginBlock l origin d = .ok () d' → Step d d'
  | operand {d d' : Draft} {o : OperandId} {s : Slot} : lowerOperand g o d = .ok s d' → Step d d'
  | spare {d d' : Draft} {s : Slot} : freshSlot d = .ok s d' → Step d d'
  | emit {d d' : Draft} {i : Instr} {line : Option Nat} :
      Lowering.emit i line d = .ok () d' → Step d d'
  | finish {d d' : Draft} : finishBlock d = .ok () d' → Step d d'
  | report {d d' : Draft} {e : Event} : Lowering.report e d = .ok () d' → Step d d'

def Later : Draft → Draft → Prop := Relation.ReflTransGen (Step g)

def Reached (d : Draft) : Prop := Later g {} d

end Lowering

def Draft.read? (d : Draft) (scope : Scope) (o : OperandId) : Option Value :=
  (d.slotOf.lookup o).bind fun s => scope[s]?

/-- What a list of values comes to: the text of all of them, unless there is but one. -/
def Value.joined : List Value → Value
  | [v] => v
  | values => .string (values.flatMap Value.toBytes)

end BlockMachine
