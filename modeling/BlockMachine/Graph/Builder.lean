import BlockMachine.Graph.Basic

/-!
# Building graphs
Operations that add blocks, operands and nodes. A node can be added to an existing block only. An
operation that makes operands first has made them also when its block turns out to be missing.
-/

namespace BlockMachine
set_option autoImplicit false

structure MissingBlock where
  block : BlockId
  deriving DecidableEq

abbrev Builder := EStateM MissingBlock Graph

namespace Builder

def addBlock : Builder BlockId := fun g =>
  .ok ⟨g.blocks.length⟩ { g with blocks := g.blocks ++ [[]] }

def addRoot : Builder BlockId := do
  let b ← addBlock
  modify fun g => { g with roots := g.roots ++ [b] }
  return b

def addOperand (operand : Operand) : Builder OperandId := fun g =>
  .ok ⟨g.operands.length⟩ { g with operands := g.operands ++ [operand] }

def temporary : Builder OperandId := addOperand (.temporary none)

def namedTemporary (name : String) : Builder OperandId := addOperand (.temporary (some name))

def string (s : String) : Builder OperandId := addOperand (.literal (.string s))

def integer (n : Int64) : Builder OperandId := addOperand (.literal (.integer n))

def push (b : BlockId) (node : Node) : Builder Unit := fun g =>
  if b.val < g.blocks.length then
    .ok () { g with blocks := g.blocks.modify b.val (· ++ [node]) }
  else
    .error ⟨b⟩ g

def pushAction (b : BlockId) (action : Action) : Builder Unit := push b { action }

def binary (b : BlockId) (op : BinaryOp) (left right : OperandId) : Builder OperandId := do
  let result ← temporary
  pushAction b (.binary op left right result)
  return result

def assign (b : BlockId) (var expr : OperandId) : Builder OperandId := do
  let result ← temporary
  pushAction b (.assign var expr result)
  return result

def concatList (b : BlockId) (parts : List OperandId) : Builder OperandId := do
  let result ← temporary
  pushAction b (.concatList parts result)
  return result

def constFetch (b : BlockId) (name : String) (qualified : Option String) :
    Builder OperandId := do
  let name ← string name
  let qualified ← qualified.mapM string
  let result ← temporary
  pushAction b (.constFetch name qualified result)
  return result

def echo (b : BlockId) (expr : OperandId) : Builder Unit := pushAction b (.echo expr)

def jump (b : BlockId) (target : BlockId) : Builder Unit := pushAction b (.jump target)

def branch (b : BlockId) (cond : OperandId) (ifTrue ifFalse : BlockId) : Builder Unit :=
  pushAction b (.branch cond ifTrue ifFalse)

inductive Command where
  | addBlock
  | addRoot
  | addOperand (operand : Operand)
  | push (block : BlockId) (node : Node)
  | binary (block : BlockId) (op : BinaryOp) (left right : OperandId)
  | assign (block : BlockId) (var expr : OperandId)
  | concatList (block : BlockId) (parts : List OperandId)
  | constFetch (block : BlockId) (name : String) (qualified : Option String)
  | echo (block : BlockId) (expr : OperandId)
  | jump (block target : BlockId)
  | branch (block : BlockId) (cond : OperandId) (ifTrue ifFalse : BlockId)
  deriving DecidableEq

inductive Reply where
  | block (id : BlockId)
  | operand (id : OperandId)
  | done
  deriving DecidableEq

namespace Command

def run : Command → Builder Reply
  | .addBlock => return .block (← Builder.addBlock)
  | .addRoot => return .block (← Builder.addRoot)
  | .addOperand operand => return .operand (← Builder.addOperand operand)
  | .push b node => do Builder.push b node; return .done
  | .binary b op left right => return .operand (← Builder.binary b op left right)
  | .assign b var expr => return .operand (← Builder.assign b var expr)
  | .concatList b parts => return .operand (← Builder.concatList b parts)
  | .constFetch b name qualified => return .operand (← Builder.constFetch b name qualified)
  | .echo b expr => do Builder.echo b expr; return .done
  | .jump b target => do Builder.jump b target; return .done
  | .branch b cond ifTrue ifFalse => do Builder.branch b cond ifTrue ifFalse; return .done

/-- Performs operations in order. One that fails keeps the operands it has made, and the next one
goes on from there. -/
def runAll : List Command → Graph → List (Except MissingBlock Reply × Graph)
  | [], _ => []
  | c :: cs, g =>
    match c.run g with
    | .ok reply g' => (.ok reply, g') :: runAll cs g'
    | .error e g' => (.error e, g') :: runAll cs g'

end Command

end Builder

def Graph.build (b : Builder Unit) : Option Graph :=
  match b {} with
  | .ok _ g => some g
  | .error _ _ => none

end BlockMachine
