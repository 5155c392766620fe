import BlockMachine.Machine.Reach

/-!
# Footprints
What an instruction may change, said without carrying it out: the slots it writes and the value they
get, the block it goes to, and the scope that a block is entered with.
-/

namespace BlockMachine
set_option autoImplicit false

/-- The value of an operator for two operands. There is none if an operand that has to be an integer
is not, or if the result is out of range. -/
def Operator.value? : Operator → Value → Value → Option Value
  | .concat, l, r => some (.string (l.toBytes ++ r.toBytes))
  | .arithmetic f, l, r => do
    let m ← l.toInt.toOption
    let n ← r.toInt.toOption
    return .integer (← f.apply m.value n.value)
  | .comparison f, l, r => do
    let m ← l.toInt.toOption
    let n ← r.toInt.toOption
    return .boolean (f.holds m.value n.value)
  | .equal, l, r => some (.boolean (l.looseEq r))
  | .notEqual, l, r => some (.boolean (!l.looseEq r))

namespace Instr

def written : Instr → List Slot
  | .assign result var _ => [var, result]
  | .binary _ result _ _ | .constFetch result _ _ => [result]
  | .echo _ | .jump _ | .branch _ _ _ => []

def value? (constants : Constants) (scope : Scope) : Instr → Option Value
  | .assign _ _ expr => scope[expr]?
  | .binary op _ left right => do op.value? (← scope[left]?) (← scope[right]?)
  | .constFetch _ name qualified =>
    let constant? (slot : Slot) : Option Value := do constants.lookup (← scope[slot]?).display
    qualified.bind constant? <|> constant? name
  | .echo _ | .jump _ | .branch _ _ _ => none

def destination? (scope : Scope) : Instr → Option Label
  | .jump target => some target
  | .branch cond ifTrue ifFalse => do return if (← scope[cond]?).toBool then ifTrue else ifFalse
  | .echo _ | .assign _ _ _ | .binary _ _ _ _ | .constFetch _ _ _ => none

end Instr

structure Scope.Writes (before : Scope) (slots : List Slot) (value? : Option Value)
    (after : Scope) : Prop where
  size : after.size = before.size
  written : ∀ s ∈ slots, ∃ v, value? = some v ∧ after[s]? = some v
  kept : ∀ s, s ∉ slots → after[s]? = before[s]?

/-- A block takes over a scope: the scope grows to the size of the block if it is smaller, and the
constants are loaded into it, of which the last one for a slot stays. -/
structure CodeBlock.TakesOver (b : CodeBlock) (before after : Scope) : Prop where
  size : after.size = max before.size b.scopeSize
  loaded : ∀ earlier c later, b.constants = earlier ++ c :: later →
    (∀ d ∈ later, d.slot ≠ c.slot) → after[c.slot]? = some c.value
  kept : ∀ s < before.size, (∀ c ∈ b.constants, c.slot ≠ s) → after[s]? = before[s]?
  fresh : ∀ s < after.size, before.size ≤ s → (∀ c ∈ b.constants, c.slot ≠ s) →
    after[s]? = some .unknown

inductive Instr.Leaves (p : Program) (constants : Constants) (a : Activation) (i : Instr) :
    Activation → Prop where
  | inBlock {after : Scope} : i.targets = [] →
      a.scope.Writes i.written (i.value? constants a.scope) after →
      Leaves p constants a i { a with scope := after, pc := a.pc + 1 }
  | elsewhere {target : Label} {next : CodeBlock} {after : Scope} : target ∈ i.targets →
      i.destination? a.scope = some target → p.block? target = some next →
      next.TakesOver a.scope after →
      Leaves p constants a i { code := target, scope := after, pc := 0, cameFrom := some a.code }

end BlockMachine
