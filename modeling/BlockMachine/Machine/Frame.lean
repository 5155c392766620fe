import BlockMachine.Code.Program
import BlockMachine.Code.Record

/-!
# Frames
A frame is a block with its scope and position, or a call back into the host. A block is entered
with the scope of the block that control comes from, so values outlive a jump.
-/

namespace BlockMachine
set_option autoImplicit false

abbrev Scope := Array Value

/-- A vector has fewer than two to the power 63 bytes, and a value takes 24 of them. -/
def Scope.capacity : Nat := 0x7FFFFFFFFFFFFFFF / 24

structure Activation where
  code : Label
  scope : Scope
  pc : Nat := 0
  cameFrom : Option Label := none
  deriving DecidableEq

inductive Frame where
  | block (a : Activation)
  | continuation (name : String)
  deriving DecidableEq

namespace CodeBlock

/-- The scope that the block is entered with, unless it overflows. -/
def grow (b : CodeBlock) (scope : Scope) : Scope :=
  scope ++ Array.replicate (b.scopeSize - scope.size) .unknown

def Overflows (b : CodeBlock) (scope : Scope) : Prop :=
  scope.size < b.scopeSize ∧ Scope.capacity < b.scopeSize

instance (b : CodeBlock) (scope : Scope) : Decidable (b.Overflows scope) :=
  inferInstanceAs (Decidable (_ ∧ _))

/-- Loads constants in order. A slot outside the scope is passed over. -/
def loadConstants (constants : List Constant) (scope : Scope) : Scope :=
  constants.foldl (fun scope c => scope.setIfInBounds c.slot c.value) scope

def enter (b : CodeBlock) (scope : Scope) (cameFrom : Option Label) : Activation where
  code := b.label
  scope := loadConstants b.constants (b.grow scope)
  cameFrom := cameFrom

def activation (b : CodeBlock) : Activation := b.enter #[] none

end CodeBlock

namespace Frame

def code? : Frame → Option Label
  | .block a => some a.code
  | .continuation _ => none

def scope : Frame → Scope
  | .block a => a.scope
  | .continuation _ => #[]

def pc : Frame → Nat
  | .block a => a.pc
  | .continuation _ => 0

def cameFrom : Frame → Option Label
  | .block a => a.cameFrom
  | .continuation _ => none

def isContinuation : Frame → Bool
  | .block _ => false
  | .continuation _ => true

def record (f : Frame) : String :=
  let code := optionRecord (f.code?.map Label.record)
  let cameFrom := optionRecord (f.cameFrom.map Label.record)
  s!"Frame \x7b code: {code}, pc: {f.pc}, came_from: {cameFrom}, "
    ++ s!"scope_len: {f.scope.size}, continuation: {f.isContinuation} \x7d"

end Frame

end BlockMachine
