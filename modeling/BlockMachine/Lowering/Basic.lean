import BlockMachine.Lowering.Draft

/-!
# Lowering
The program of a graph. Every block that can be reached from the roots becomes one block of
instructions, and every operand it uses one slot of a scope that all blocks share.
-/

namespace BlockMachine
set_option autoImplicit false

namespace Lowering

variable (g : Graph)

/-- The slot of an operand, which the current block is made to know: a literal among its
constants, a temporary in its slot table. -/
def lowerOperand (o : OperandId) : Lowering Slot :=
  match g.operand? o with
  | none => throw (.danglingOperand o)
  | some (.literal l) =>
    match l.value? with
    | none => throw (.unsupportedLiteral l.typeName none)
    | some v => do
      let s ← slotFor o
      useConstant ⟨o, s, v⟩
  | some (.temporary _) => do
    let s ← slotFor o
    useTemporary o s
    return s
  | some (.variable name) => throw (.unknownOperand (Operand.variable name).kindName o none)

/-- Joins the remaining parts to what a slot holds, each step into a slot of its own. -/
def lowerParts (line : Option Nat) : Slot → List OperandId → Lowering Slot
  | joined, [] => return joined
  | joined, part :: parts => do
    let right ← lowerOperand g part
    let next ← freshSlot
    emit (.binary .concat next joined right) line
    lowerParts line next parts

def lowerConcatList (line : Option Nat) (parts : List OperandId) (result : OperandId) :
    Lowering Unit :=
  match parts with
  | [] => throw (.emptyConcatList line)
  | first :: rest => do
    let joined ← lowerParts g line (← lowerOperand g first) rest
    let result ← lowerOperand g result
    emit (.assign result result joined) line

def lowerNode (node : Node) : Lowering Unit :=
  match node.action with
  | .binary op left right result =>
    match op.operator? with
    | none => throw (.unsupportedOperator op.typeName node.line)
    | some operator => do
      let result ← lowerOperand g result
      let left ← lowerOperand g left
      let right ← lowerOperand g right
      emit (.binary operator result left right) node.line
  | .assign var expr result => do
    let result ← lowerOperand g result
    let var ← lowerOperand g var
    let expr ← lowerOperand g expr
    emit (.assign result var expr) node.line
  | .concatList parts result => lowerConcatList g node.line parts result
  | .constFetch name qualified result => do
    let result ← lowerOperand g result
    let name ← lowerOperand g name
    let qualified ← qualified.mapM (lowerOperand g)
    emit (.constFetch result name qualified) node.line
  | .call _ _ _ => throw (.unsupportedExpression node)
  | .jump target => do
    let target ← labelFor g target
    emit (.jump target) node.line
  | .branch cond ifTrue ifFalse => do
    let cond ← lowerOperand g cond
    let ifTrue ← labelFor g ifTrue
    let ifFalse ← labelFor g ifFalse
    emit (.branch cond ifTrue ifFalse) node.line
  | .declare kind name => throw (.notImplemented kind.name name node.line)
  | .echo expr => do
    let value ← lowerOperand g expr
    emit (.echo value) node.line
  | .ret _ => throw (.unsupportedTerminal node)

def lowerNodes : List Node → Lowering Unit
  | [] => return ()
  | node :: nodes => do
    EStateM.adaptExcept (Refusal.orLine node.line) (lowerNode g node)
    lowerNodes nodes

def lowerBlock (label : Label) (origin : BlockId) : Lowering Unit := do
  beginBlock label origin
  match g.block? origin with
  | none => throw (.unknownBlock origin)
  | some nodes =>
    lowerNodes g nodes
    finishBlock

/-- Fills registered blocks in label order, at most the given number of them. Labels belong to
different graph blocks, so the number of blocks in the graph is enough for all. -/
def lowerPending : Nat → Lowering Unit
  | 0 => return ()
  | n + 1 => do
    let d ← get
    match d.registered[d.finished.length]? with
    | none => return ()
    | some origin =>
      lowerBlock g ⟨d.finished.length⟩ origin
      lowerPending n

def lowerRoot (root : BlockId) : Lowering Label := do
  let label ← labelFor g root
  lowerPending g g.blocks.length
  return label

def lowerRoots (roots : List BlockId) : Lowering Program := do
  let labels ← roots.mapM (lowerRoot g)
  match labels with
  | [] => throw .noRootBlocks
  | entry :: _ =>
    let d ← get
    report (.programDone d.finished.length d.nextSlot entry)
    return {
      blocks := d.finished.map fun b => { b with scopeSize := d.nextSlot }
      entry
      slotCount := d.nextSlot }

end Lowering

namespace Graph

def lowering (g : Graph) (roots : List BlockId) :
    Except Refusal Program × List Lowering.Event :=
  match Lowering.lowerRoots g roots {} with
  | .ok p d => (.ok p, d.events)
  | .error e d => (.error e, d.events)

def lower (g : Graph) (roots : List BlockId) : Except Refusal Program := (g.lowering roots).1

end Graph

end BlockMachine
