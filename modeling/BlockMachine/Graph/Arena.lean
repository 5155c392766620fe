import BlockMachine.Graph.Builder

/-!
# Graphs as arenas
What building operations add to a graph. Blocks and operands are never taken away, operands never
change, and blocks change by the nodes that are appended to them only. So both keep the numbers
that they were made under.
-/

namespace BlockMachine
set_option autoImplicit false

namespace Builder

namespace Command

def names : Command → List String
  | .constFetch _ name qualified => name :: qualified.toList
  | .addBlock | .addRoot | .addOperand _ | .push _ _ | .binary _ _ _ _ | .assign _ _ _
  | .concatList _ _ | .echo _ _ | .jump _ _ | .branch _ _ _ _ => []

def own? : Command → Option Operand
  | .addOperand operand => some operand
  | .binary _ _ _ _ | .assign _ _ _ | .concatList _ _ | .constFetch _ _ _ => some (.temporary none)
  | .addBlock | .addRoot | .push _ _ | .echo _ _ | .jump _ _ | .branch _ _ _ _ => none

def operands (c : Command) : List Operand :=
  c.names.map (fun name => .literal (.string name)) ++ c.own?.toList

def makesBlock : Command → Bool
  | .addBlock | .addRoot => true
  | .addOperand _ | .push _ _ | .binary _ _ _ _ | .assign _ _ _ | .concatList _ _
  | .constFetch _ _ _ | .echo _ _ | .jump _ _ | .branch _ _ _ _ => false

/-- The node that it appends and the block it names, where the operands it makes are numbered from
the given number on. -/
def node? (next : Nat) : Command → Option (BlockId × Node)
  | .addBlock | .addRoot | .addOperand _ => none
  | .push b node => some (b, node)
  | .binary b op left right => some (b, { action := .binary op left right ⟨next⟩ })
  | .assign b var expr => some (b, { action := .assign var expr ⟨next⟩ })
  | .concatList b parts => some (b, { action := .concatList parts ⟨next⟩ })
  | .constFetch b _ none => some (b, { action := .constFetch ⟨next⟩ none ⟨next + 1⟩ })
  | .constFetch b _ (some _) =>
    some (b, { action := .constFetch ⟨next⟩ (some ⟨next + 1⟩) ⟨next + 2⟩ })
  | .echo b expr => some (b, { action := .echo expr })
  | .jump b target => some (b, { action := .jump target })
  | .branch b cond ifTrue ifFalse => some (b, { action := .branch cond ifTrue ifFalse })

def nodesFor (b : BlockId) (next : Nat) (c : Command) : List Node :=
  match c.node? next with
  | some (named, node) => if named = b then [node] else []
  | none => []

def reply (g : Graph) (c : Command) : Reply :=
  if c.makesBlock then .block ⟨g.blocks.length⟩
  else if c.own?.isSome then .operand ⟨g.operands.length + c.names.length⟩
  else .done

/-- What comes of a command, whether it fails or not. -/
structure Appends (c : Command) (before : Graph) (result : Except MissingBlock Reply)
    (after : Graph) : Prop where
  reply : ∀ reply, result = .ok reply → reply = c.reply before
  operands : after.operands = before.operands ++ c.operands
  answered : ∀ o, result = .ok (.operand o) → after.operand? o = c.own?
  nodes : ∀ b nodes, before.block? b = some nodes →
    after.block? b = some (nodes ++ c.nodesFor b before.operands.length)
  count : after.blocks.length = before.blocks.length + c.makesBlock.toNat
  empty : ∀ b, result = .ok (.block b) → after.block? b = some []
  roots : after.roots =
    before.roots ++ if c = .addRoot then [⟨before.blocks.length⟩] else []
  fails_iff : ∀ e, result = .error e ↔
    ∃ node, c.node? before.operands.length = some (e.block, node) ∧ before.block? e.block = none
  kept : ∀ e, result = .error e → after.blocks = before.blocks ∧ after.roots = before.roots

def attempt (c : Command) (g : Graph) : Except MissingBlock Reply × Graph :=
  match c.run g with
  | .ok reply g' => (.ok reply, g')
  | .error e g' => (.error e, g')

end Command

def nodesFor (b : BlockId) : Nat → List Command → List Node
  | _, [] => []
  | next, c :: cs => c.nodesFor b next ++ nodesFor b (next + c.operands.length) cs

def answers (commands : List Command) : List (Except MissingBlock Reply) :=
  (Command.runAll commands {}).map Prod.fst

/-- The graph that commands leave behind, also where some of them fail. -/
def graphAfter (commands : List Command) (g : Graph) : Graph :=
  ((Command.runAll commands g).map Prod.snd).getLastD g

def built (commands : List Command) : Graph := graphAfter commands {}

end Builder

structure Graph.GrowsBy (before : Graph) (commands : List Builder.Command) (after : Graph) :
    Prop where
  operands : after.operands = before.operands ++ commands.flatMap (·.operands)
  nodes : ∀ b nodes, before.block? b = some nodes →
    after.block? b = some (nodes ++ Builder.nodesFor b before.operands.length commands)
  roots : before.roots <+: after.roots

end BlockMachine
