import BlockMachine.Lowering.Basic

/-!
# Work lists
Lowering as it goes on for as long as there is work: registered blocks are filled one by one, and
when none is left the next root gets its label. Nothing here limits the number of turns, so that a
lowering comes to a result is something to be proved.
-/

namespace BlockMachine
set_option autoImplicit false

namespace Lowering

/-- The roots that are left and the registered blocks that are not filled are worked off one after
another, up to the given result. -/
inductive WorksOff (g : Graph) : List BlockId → Draft → EStateM.Result Refusal Draft Unit → Prop
    where
  | done {d : Draft} : d.registered[d.finished.length]? = none → WorksOff g [] d (.ok () d)
  | block {roots : List BlockId} {d d' : Draft} {b : BlockId}
      {result : EStateM.Result Refusal Draft Unit} : d.registered[d.finished.length]? = some b →
      lowerBlock g ⟨d.finished.length⟩ b d = .ok () d' → WorksOff g roots d' result →
      WorksOff g roots d result
  | blockRefused {roots : List BlockId} {d d' : Draft} {b : BlockId} {r : Refusal} :
      d.registered[d.finished.length]? = some b →
      lowerBlock g ⟨d.finished.length⟩ b d = .error r d' → WorksOff g roots d (.error r d')
  | root {root : BlockId} {roots : List BlockId} {d d' : Draft} {label : Label}
      {result : EStateM.Result Refusal Draft Unit} : d.registered[d.finished.length]? = none →
      labelFor g root d = .ok label d' → WorksOff g roots d' result →
      WorksOff g (root :: roots) d result
  | rootRefused {root : BlockId} {roots : List BlockId} {d d' : Draft} {r : Refusal} :
      d.registered[d.finished.length]? = none → labelFor g root d = .error r d' →
      WorksOff g (root :: roots) d (.error r d')

def outcome (roots : List BlockId) : EStateM.Result Refusal Draft Unit → Except Refusal Program
  | .error r _ => .error r
  | .ok () d =>
    if roots = [] then .error .noRootBlocks
    else .ok {
      blocks := d.finished.map fun b => { b with scopeSize := d.nextSlot }
      entry := ⟨0⟩
      slotCount := d.nextSlot }

end Lowering

end BlockMachine
