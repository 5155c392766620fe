import BlockMachine.Graph.Arena
import BlockMachine.Proofs.Outcome
import Mathlib.Data.List.Induction

/-!
# Graphs only grow
Whatever is built, and whatever fails on the way, what a graph has it keeps. Each command adds what
it is for at the end of what is there, so a number goes on naming what it was given out for.
-/

namespace BlockMachine
set_option autoImplicit false

theorem Graph.GrowsBy.operand?_eq {g g' : Graph} {commands : List Builder.Command}
    (h : g.GrowsBy commands g') {o : OperandId} {operand : Operand}
    (ho : g.operand? o = some operand) : g'.operand? o = some operand := by
  have hLt : o.val < g.operands.length := (List.getElem?_eq_some_iff.mp ho).1
  rw [Graph.operand?, h.operands, List.getElem?_append_left hLt]
  exact ho

namespace Builder

variable {c : Command} {g : Graph} {b : BlockId} {node : Node}

theorem addOperand_bind {α : Type} (operand : Operand) (f : OperandId → Builder α) (g : Graph) :
    (addOperand operand >>= f) g =
      f ⟨g.operands.length⟩ { g with operands := g.operands ++ [operand] } := rfl

theorem push_of_lt (h : b.val < g.blocks.length) :
    push b node g = .ok () { g with blocks := g.blocks.modify b.val (· ++ [node]) } := if_pos h

theorem push_of_not_lt (h : ¬ b.val < g.blocks.length) : push b node g = .error ⟨b⟩ g := if_neg h

namespace Command

theorem run_eq_of_node? (h : c.node? g.operands.length = some (b, node)) :
    c.run g = (do Builder.push b node; return c.reply g : Builder Reply)
      { g with operands := g.operands ++ c.operands } := by
  cases c with
  | addBlock | addRoot | addOperand => cases h
  | push | echo | jump | branch =>
    cases h
    simp only [operands, names, own?, List.map_nil, Option.toList_none, List.append_nil]
    rfl
  | binary | assign | concatList =>
    cases h
    simp only [run, Builder.binary, Builder.assign, Builder.concatList, temporary, bind_assoc,
      addOperand_bind, pure_bind]
    rfl
  | constFetch b name qualified =>
    cases qualified with
    | none | some =>
      cases h
      simp only [run, Builder.constFetch, Option.mapM_none, Option.mapM_some, string, temporary,
        bind_assoc, pure_bind, map_eq_pure_bind, addOperand_bind, List.length_append,
        List.append_assoc]
      rfl

theorem makesBlock_of_node? {next : Nat} (h : c.node? next = some (b, node)) :
    c.makesBlock = false ∧ c ≠ .addRoot := by
  cases c with
  | addBlock | addRoot | addOperand => cases h
  | _ => exact ⟨rfl, nofun⟩

theorem attempt_of_none (h : c.node? g.operands.length = none) :
    c.attempt g = (.ok (c.reply g), {
      operands := g.operands ++ c.operands
      blocks := g.blocks ++ List.replicate c.makesBlock.toNat []
      roots := g.roots ++ if c = .addRoot then [⟨g.blocks.length⟩] else [] }) := by
  cases c with
  | addBlock | addRoot | addOperand =>
    simp only [operands, names, own?, List.map_nil, Option.toList_none, List.append_nil,
      reduceCtorEq, if_false, makesBlock, Bool.toNat_false, List.replicate_zero]
    rfl
  | constFetch b name qualified => cases qualified <;> cases h
  | _ => cases h

theorem attempt_of_lt (h : c.node? g.operands.length = some (b, node))
    (hb : b.val < g.blocks.length) :
    c.attempt g = (.ok (c.reply g), { g with
      operands := g.operands ++ c.operands
      blocks := g.blocks.modify b.val (· ++ [node]) }) := by
  have hPush : Builder.push b node { g with operands := g.operands ++ c.operands } = _ :=
    push_of_lt hb
  rw [attempt, run_eq_of_node? h, Outcome.bind_of_ok hPush]
  rfl

theorem attempt_of_not_lt (h : c.node? g.operands.length = some (b, node))
    (hb : ¬ b.val < g.blocks.length) :
    c.attempt g = (.error ⟨b⟩, { g with operands := g.operands ++ c.operands }) := by
  have hPush : Builder.push b node { g with operands := g.operands ++ c.operands } = _ :=
    push_of_not_lt hb
  rw [attempt, run_eq_of_node? h, Outcome.bind_of_error hPush]

theorem reply_eq_block_iff :
    c.reply g = .block b ↔ c.makesBlock = true ∧ b = ⟨g.blocks.length⟩ := by
  rw [reply]
  split_ifs with hBlock hOwn <;> simp [hBlock, eq_comm]

theorem getElem?_of_reply {o : OperandId} (h : c.reply g = .operand o) :
    (g.operands ++ c.operands)[o.val]? = c.own? := by
  rw [reply] at h
  split_ifs at h with hBlock hOwn
  obtain ⟨operand, hOperand⟩ := Option.isSome_iff_exists.mp hOwn
  cases h
  rw [operands, hOperand, List.getElem?_append_right (Nat.le_add_right _ _)]
  simp

theorem appends_of_none (h : c.node? g.operands.length = none) :
    c.Appends g (c.attempt g).1 (c.attempt g).2 := by
  rw [attempt_of_none h]
  constructor
  case reply =>
    rintro _ ⟨⟩
    rfl
  case operands => rfl
  case answered =>
    intro o ho
    exact getElem?_of_reply (Except.ok.inj ho)
  case nodes =>
    intro b nodes hb
    have hLt : b.val < g.blocks.length := (List.getElem?_eq_some_iff.mp hb).1
    rw [Graph.block?, List.getElem?_append_left hLt, nodesFor, h, List.append_nil]
    exact hb
  case count => simp
  case empty =>
    intro b hb
    obtain ⟨hMakes, rfl⟩ := reply_eq_block_iff.mp (Except.ok.inj hb)
    simp [Graph.block?, hMakes]
  case roots => rfl
  case fails_iff => simp [h]
  case kept => rintro e ⟨⟩

theorem appends_of_lt (h : c.node? g.operands.length = some (b, node))
    (hb : b.val < g.blocks.length) : c.Appends g (c.attempt g).1 (c.attempt g).2 := by
  obtain ⟨hMakes, hRoot⟩ := makesBlock_of_node? h
  rw [attempt_of_lt h hb]
  constructor
  case reply =>
    rintro _ ⟨⟩
    rfl
  case operands => rfl
  case answered =>
    intro o ho
    exact getElem?_of_reply (Except.ok.inj ho)
  case nodes =>
    intro b' nodes hNodes
    rw [Graph.block?] at hNodes
    rw [Graph.block?, List.getElem?_modify, hNodes, nodesFor, h]
    by_cases hName : b = b'
    · simp [hName]
    · have hVal : b.val ≠ b'.val := fun hVal => hName (congrArg BlockId.mk hVal)
      simp [hName, hVal]
  case count => simp [hMakes]
  case empty =>
    intro b hb
    obtain ⟨hTrue, -⟩ := reply_eq_block_iff.mp (Except.ok.inj hb)
    cases hMakes.symm.trans hTrue
  case roots => simp [hRoot]
  case fails_iff =>
    intro e
    simp only [reduceCtorEq, h, Option.some.injEq, Prod.mk.injEq, false_iff]
    rintro ⟨-, ⟨rfl, -⟩, hNone⟩
    exact absurd hb (Nat.not_lt.mpr (List.getElem?_eq_none_iff.mp hNone))
  case kept => rintro e ⟨⟩

theorem appends_of_not_lt (h : c.node? g.operands.length = some (b, node))
    (hb : ¬ b.val < g.blocks.length) : c.Appends g (c.attempt g).1 (c.attempt g).2 := by
  obtain ⟨hMakes, hRoot⟩ := makesBlock_of_node? h
  rw [attempt_of_not_lt h hb]
  constructor
  case reply => rintro _ ⟨⟩
  case operands => rfl
  case answered => rintro o ⟨⟩
  case nodes =>
    intro b' nodes hNodes
    have hLt : b'.val < g.blocks.length := (List.getElem?_eq_some_iff.mp hNodes).1
    have hName : b ≠ b' := by
      rintro rfl
      exact hb hLt
    simp only [nodesFor, h, if_neg hName, List.append_nil]
    exact hNodes
  case count => simp [hMakes]
  case empty => rintro b ⟨⟩
  case roots => simp [hRoot]
  case fails_iff =>
    rintro ⟨b'⟩
    have hNone : g.block? b = none := List.getElem?_eq_none_iff.mpr (Nat.not_lt.mp hb)
    simp only [h, Except.error.injEq, MissingBlock.mk.injEq, Option.some.injEq, Prod.mk.injEq]
    constructor
    · rintro rfl
      exact ⟨node, ⟨rfl, rfl⟩, hNone⟩
    · rintro ⟨-, ⟨hName, -⟩, -⟩
      exact hName
  case kept => exact fun e he => ⟨rfl, rfl⟩

theorem attempt_appends (c : Command) (g : Graph) :
    c.Appends g (c.attempt g).1 (c.attempt g).2 := by
  cases h : c.node? g.operands.length with
  | none => exact appends_of_none h
  | some named =>
    by_cases hb : named.1.val < g.blocks.length
    · exact appends_of_lt h hb
    · exact appends_of_not_lt h hb

end Command

section Runs

variable {commands : List Command}

theorem runAll_cons (c : Command) (cs : List Command) (g : Graph) :
    Command.runAll (c :: cs) g = c.attempt g :: Command.runAll cs (c.attempt g).2 := by
  rw [Command.runAll, Command.attempt]
  cases c.run g <;> rfl

theorem graphAfter_cons (c : Command) (cs : List Command) (g : Graph) :
    graphAfter (c :: cs) g = graphAfter cs (c.attempt g).2 := by
  rw [graphAfter, runAll_cons, List.map_cons, List.getLastD_cons]
  rfl

theorem runAll_append (cs ds : List Command) (g : Graph) :
    Command.runAll (cs ++ ds) g = Command.runAll cs g ++ Command.runAll ds (graphAfter cs g) := by
  induction cs generalizing g with
  | nil => rfl
  | cons c cs ih => simp only [List.cons_append, runAll_cons, ih, graphAfter_cons]

theorem graphAfter_append (cs ds : List Command) (g : Graph) :
    graphAfter (cs ++ ds) g = graphAfter ds (graphAfter cs g) := by
  induction cs generalizing g with
  | nil => rfl
  | cons c cs ih => simp only [List.cons_append, graphAfter_cons, ih]

theorem built_concat (commands : List Command) (c : Command) :
    built (commands ++ [c]) = (c.attempt (built commands)).2 := by
  rw [built, graphAfter_append, graphAfter_cons]
  rfl

theorem runAll_concat (commands : List Command) (c : Command) :
    Command.runAll (commands ++ [c]) {} =
      Command.runAll commands {} ++ [c.attempt (built commands)] := by
  rw [runAll_append, runAll_cons]
  rfl

/-- A command that fails adds its operands too, so the next ones are numbered behind them. -/
theorem growsBy (commands : List Command) (g : Graph) :
    g.GrowsBy commands (graphAfter commands g) := by
  induction commands generalizing g with
  | nil =>
    refine ⟨by simp [graphAfter, Command.runAll], ?_, ?_⟩
    · intro b nodes hb
      simpa [graphAfter, Command.runAll, nodesFor] using hb
    · simp [graphAfter, Command.runAll]
  | cons c cs ih =>
    have hFirst := c.attempt_appends g
    have hRest := ih (c.attempt g).2
    rw [graphAfter_cons]
    constructor
    case operands =>
      rw [hRest.operands, hFirst.operands, List.flatMap_cons, List.append_assoc]
    case nodes =>
      intro b nodes hb
      have hLength : (c.attempt g).2.operands.length = g.operands.length + c.operands.length := by
        rw [hFirst.operands, List.length_append]
      rw [hRest.nodes b _ (hFirst.nodes b nodes hb), hLength, nodesFor, List.append_assoc]
    case roots =>
      refine List.IsPrefix.trans ?_ hRest.roots
      rw [hFirst.roots]
      exact List.prefix_append _ _

theorem roots_ascending (commands : List Command) :
    (∀ b ∈ (built commands).roots, b.val < (built commands).blocks.length) ∧
      (built commands).roots.Pairwise (·.val < ·.val) := by
  induction commands using List.reverseRecOn with
  | nil => exact ⟨nofun, .nil⟩
  | append_singleton commands c ih =>
    obtain ⟨hBlocks, hAscending⟩ := ih
    have hAppends := c.attempt_appends (built commands)
    rw [built_concat, hAppends.roots, hAppends.count]
    by_cases hRoot : c = .addRoot
    · subst hRoot
      simp only [if_true]
      constructor
      · intro b hb
        obtain hOld | hNew := List.mem_append.mp hb
        · exact Nat.lt_add_right _ (hBlocks b hOld)
        · rw [List.mem_singleton.mp hNew]
          exact Nat.lt_succ_self _
      · refine List.pairwise_append.mpr ⟨hAscending, List.pairwise_singleton _ _, ?_⟩
        intro b hb new hNew
        rw [List.mem_singleton.mp hNew]
        exact hBlocks b hb
    · simp only [if_neg hRoot, List.append_nil]
      exact ⟨fun b hb => Nat.lt_add_right _ (hBlocks b hb), hAscending⟩

theorem length_runAll (commands : List Command) (g : Graph) :
    (Command.runAll commands g).length = commands.length := by
  induction commands generalizing g with
  | nil => rfl
  | cons c cs ih => rw [runAll_cons, List.length_cons, ih, List.length_cons]

theorem zip_answers_concat (commands : List Command) (c : Command) :
    (commands ++ [c]).zip (answers (commands ++ [c])) =
      commands.zip (answers commands) ++ [(c, (c.attempt (built commands)).1)] := by
  have hLength : commands.length = (answers commands).length := by
    rw [answers, List.length_map, length_runAll]
  rw [answers, runAll_concat, List.map_append, ← answers, List.zip_append hLength]
  rfl

theorem mem_roots_iff (commands : List Command) (b : BlockId) : b ∈ (built commands).roots ↔
    (.addRoot, .ok (.block b)) ∈ commands.zip (answers commands) := by
  induction commands using List.reverseRecOn with
  | nil => simp [built, graphAfter, Command.runAll]
  | append_singleton commands c ih =>
    rw [zip_answers_concat, built_concat, (c.attempt_appends _).roots, List.mem_append,
      List.mem_append, ih, List.mem_singleton]
    refine or_congr_right ?_
    by_cases hRoot : c = .addRoot
    · subst hRoot
      rw [if_pos rfl, List.mem_singleton, Command.attempt_of_none rfl]
      simp [Command.reply, Command.makesBlock]
    · simp [hRoot, Ne.symm hRoot]

/-- Each command, whatever came before it and whether it fails or not, appends what it is for, and
answers with the number of what it made; nothing that was there is lost or changed. The roots are
the blocks that were made as such, from the first to the last. -/
theorem arena_grows (commands : List Command) :
    (∀ c, ∃ result, Command.runAll (commands ++ [c]) {} =
        Command.runAll commands {} ++ [(result, built (commands ++ [c]))] ∧
      c.Appends (built commands) result (built (commands ++ [c]))) ∧
    (∀ more, (built commands).GrowsBy more (built (commands ++ more)) ∧
      ∀ o operand, (built commands).operand? o = some operand →
        (built (commands ++ more)).operand? o = some operand) ∧
    (built commands).roots.Pairwise (·.val < ·.val) ∧
    ∀ b, b ∈ (built commands).roots ↔
      (.addRoot, .ok (.block b)) ∈ commands.zip (answers commands) := by
  refine ⟨?_, ?_, (roots_ascending commands).2, mem_roots_iff commands⟩
  · intro c
    refine ⟨(c.attempt (built commands)).1, ?_, ?_⟩
    · rw [runAll_concat, built_concat]
    · rw [built_concat]
      exact c.attempt_appends (built commands)
  · intro more
    have hGrows : (built commands).GrowsBy more (built (commands ++ more)) := by
      rw [built, built, graphAfter_append]
      exact growsBy more _
    exact ⟨hGrows, fun o operand => hGrows.operand?_eq⟩

/-- The first operand made is the name that is asked for, so what it stands for comes second. -/
theorem constFetch_id_ne_count :
    Command.runAll [.addRoot, .constFetch ⟨0⟩ "FOO" none] {} =
      [(.ok (.block ⟨0⟩), built [.addRoot]),
        (.ok (.operand ⟨1⟩), built [.addRoot, .constFetch ⟨0⟩ "FOO" none])] ∧
    (built [.addRoot]).operands.length = 0 ∧
    ¬ ∀ (commands : List Command) (c : Command) (o : OperandId),
      (c.attempt (built commands)).1 = .ok (.operand o) →
        o.val = (built commands).operands.length := by
  refine ⟨rfl, rfl, ?_⟩
  intro h
  have hCount := h [.addRoot] (.constFetch ⟨0⟩ "FOO" none) ⟨1⟩ rfl
  cases hCount

end Runs

end Builder

end BlockMachine
