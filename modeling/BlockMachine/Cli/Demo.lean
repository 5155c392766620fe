import BlockMachine.Graph.Builder

/-!
# Demonstration graph
A loop that counts to one hundred and writes two lines a round.
-/

namespace BlockMachine.Cli
set_option autoImplicit false

open Builder

def buildDemo : Builder Unit := do
  let entry ← addRoot
  let test ← addBlock
  let body ← addBlock
  let done ← addBlock
  let add (b : BlockId) (line : Nat) (action : Action) : Builder Unit :=
    push b { action, line := some line }
  let i ← namedTemporary "i"
  let zero ← integer 0
  let started ← temporary
  add entry 1 (.assign i zero started)
  add entry 2 (.jump test)
  let limit ← integer 100
  let below ← temporary
  add test 2 (.binary .smaller i limit below)
  add test 2 (.branch below body done)
  let one ← integer 1
  let sum ← temporary
  add body 3 (.binary .plus i one sum)
  let counted ← temporary
  add body 3 (.assign i sum counted)
  let message ← namedTemporary "message"
  let before ← string "test "
  let after ← string " \n"
  let joined ← temporary
  add body 4 (.concatList [before, i, after] joined)
  let stored ← temporary
  add body 4 (.assign message joined stored)
  let another ← string "another\n"
  let text ← temporary
  add body 5 (.binary .concat message another text)
  add body 5 (.echo text)
  add body 6 (.jump test)

def demo : Graph := (Graph.build buildDemo).getD {}

end BlockMachine.Cli
