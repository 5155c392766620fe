import BlockMachine.Proofs.Lowering.Following
import BlockMachine.Proofs.Lowering.WellFormed

/-!
# Lowering preserves meaning
A lowered program does on a machine what a walk does on its graph. Each turn of the walk is a
passage of the machine, and both end alike, so they show the same at every step limit.
-/

namespace BlockMachine
set_option autoImplicit false

open Machine

theorem Action.cost_eq {g : Graph} {a : Action} (ha : a.Lowerable g) : a.cost = a.joints + 1 := by
  have hSupported := ha.supported
  cases a with
  | concatList parts result =>
    cases parts with
    | nil => cases hSupported
    | cons first rest => rfl
  | _ => rfl

namespace Limits

def counted (limits : Limits) (steps : Nat) : Nat :=
  match limits.maxSteps with
  | some m => min steps (m + 1)
  | none => steps

theorem counted_of_within {limits : Limits} {n : Nat} (h : overLimit limits n = none) :
    limits.counted n = n := by
  have hLe := (overLimit_eq_none_iff limits n).mp h
  rw [counted]
  split
  · rename_i m hMax
    have := hLe m hMax
    omega
  · rfl

theorem counted_of_over {limits : Limits} {m n : Nat} (hMax : limits.maxSteps = some m)
    (hOver : m < n) : limits.counted n = m + 1 := by
  rw [counted, hMax]
  dsimp only
  omega

end Limits

namespace Layout

variable {l : Layout} {g : Graph} {roots : List BlockId} {limits : Limits} {h : Host}
  {origin : BlockId} {a : Activation} {spares : List (List Slot)} {w : Walk.State}
  {s : Machine.State}

/-- The machine does next what the walk does next. -/
def Answers (l : Layout) (g : Graph) (limits : Limits) (h : Host) (s : Machine.State) :
    Walk.Transition → Prop
  | .next w => ∃ n t origin a spares, 0 < n ∧ Passes (l.program g) limits n s t ∧
      l.Follows g limits h origin a spares w t
  | .halt w fault => ∃ t failure, Halts (l.program g) limits s t failure ∧
      failure.map Failure.fault = fault.map (Fault.map l.slot) ∧
      t.Shows h w.output w.warnings (limits.counted w.steps)

/-- The machine is at the code of a node, which has the values of its operands at hand. -/
structure Faces (l : Layout) (g : Graph) (origin : BlockId) (a : Activation) (v : Valuation)
    (node : Node) (rest : List Node) (b : CodeBlock) (spare : List Slot)
    (others : List (List Slot)) : Prop where
  block : (l.program g).block? a.code = some b
  code : b.instrs.drop a.pc =
    node.action.code l.toPlacement spare ++ Node.codes l.toPlacement rest others
  lowerable : node.action.Lowerable g
  length : spare.length = node.action.joints
  joints : others.map List.length = rest.map (·.action.joints)
  spare : spare ∈ l.spares.flatten
  others : ∀ other ∈ others, other ∈ l.spares.flatten
  targets : ∀ t ∈ node.action.targets, t ∈ l.origins
  operands : ∀ o ∈ node.action.operands,
    o ∈ g.operandsOf l.origins ∧ a.scope[l.slot o]? = some (v o)

theorem Follows.faces (hSound : l.Sound g roots) (hF : l.Follows g limits h origin a spares w s)
    {node : Node} {rest : List Node} (hRest : w.rest = node :: rest) :
    ∃ b spare others, l.Faces g origin a w.valuation node rest b spare others := by
  obtain ⟨all, hBlock, hCode⟩ := hF.code
  have hJoints := hF.joints
  rw [hRest] at hJoints hCode
  cases spares with
  | nil => cases hJoints
  | cons spare others =>
    obtain ⟨hLength, hOthers⟩ := List.cons.inj hJoints
    obtain ⟨hSpare, hMembers⟩ := List.forall_mem_cons.mp hF.spares
    have hNode := hF.rest node (hRest ▸ List.mem_cons_self)
    have hCovers := hSound.covers origin hF.mem_origins
    refine ⟨_, spare, others, hBlock, hCode, hCovers.lowerable node hNode, hLength, hOthers, hSpare,
      hMembers, fun t ht => ?_, fun o ho => ?_⟩
    · exact hCovers.targets t (List.mem_flatMap.mpr ⟨node, hNode, ht⟩)
    · have hUse : o ∈ Node.uses (g.nodes origin) := List.mem_flatMap.mpr ⟨node, hNode, ho⟩
      have hMem := Graph.mem_operandsOf.mpr ⟨origin, hF.mem_origins, hUse⟩
      exact ⟨hMem, hF.holds.values o hMem (.inr hUse)⟩

theorem Follows.next (hF : l.Follows g limits h origin a spares w s) {node : Node}
    {rest : List Node} {b : CodeBlock} {spare : List Slot} {others : List (List Slot)}
    (hFaces : l.Faces g origin a w.valuation node rest b spare others)
    (hRest : w.rest = node :: rest) {t : Machine.State} {v : Valuation} {scope : Scope} {k n : Nat}
    {output : List UInt8} {warnings : List String}
    (hLength : k = (node.action.code l.toPlacement spare).length)
    (hRunning : t.running = some { a with scope, pc := a.pc + k })
    (hHolds : l.Holds g origin v scope) (hShows : t.Shows h output warnings n)
    (hWithin : overLimit limits n = none) :
    l.Follows g limits h origin { a with scope, pc := a.pc + k } others
      ⟨v, rest, output, warnings, n⟩ t where
  mem_origins := hF.mem_origins
  running := hRunning
  code := by
    obtain ⟨all, hBlock, -⟩ := hF.code
    have hCode := hFaces.code
    cases hFaces.block.symm.trans hBlock
    refine ⟨all, hBlock, ?_⟩
    change (Node.codes l.toPlacement (g.nodes origin) all).drop a.pc = _ at hCode
    rw [← List.drop_drop, hCode, hLength, List.drop_left]
  joints := hFaces.joints
  spares := hFaces.others
  rest n hn := hF.rest n (hRest ▸ List.mem_cons_of_mem node hn)
  holds := hHolds
  shows := hShows
  within := hWithin

theorem Follows.answers_end (hF : l.Follows g limits h origin a spares w s) (hRest : w.rest = []) :
    l.Answers g limits h s (.halt w none) := by
  obtain ⟨all, hBlock, hCode⟩ := hF.code
  rw [hRest, Node.codes_nil] at hCode
  have hEnd : (Node.codes l.toPlacement (g.nodes origin) all)[a.pc]? = none :=
    List.getElem?_eq_none_iff.mpr (List.drop_eq_nil_iff.mp hCode)
  obtain ⟨t, hHalts, hShows⟩ := halts_at_end hF.shows ⟨hF.running, hBlock, hEnd⟩
  refine ⟨t, none, hHalts, rfl, ?_⟩
  rw [limits.counted_of_within hF.within]
  exact hShows

section Node

variable {node : Node} {rest : List Node} {b : CodeBlock} {spare : List Slot}
  {others : List (List Slot)} {v : Valuation}

theorem Faces.quiet (hSound : l.Sound g roots)
    (hFaces : l.Faces g origin a v node rest b spare others) (hHolds : l.Holds g origin v a.scope)
    {parts : List OperandId} {result : OperandId} (hList : node.action = .concatList parts result)
    (constants : Constants) :
    ∃ x after, node.action.effect constants v = pure (.store [(result, x)]) ∧
      Quiet constants (node.action.code l.toPlacement spare) a.scope after ∧
      l.Holds g origin (v.setAll [(result, x)]) after := by
  have hLowerable := hFaces.lowerable
  have hLength := hFaces.length
  have hOperands := hFaces.operands
  rw [hList] at hLowerable hLength hOperands ⊢
  cases parts with
  | nil => cases hLowerable.supported
  | cons first parts =>
    have hFirst := hOperands first (by simp [Action.operands])
    have hResult := hOperands result (by simp [Action.operands])
    have hParts (o : OperandId) (ho : o ∈ parts) := hOperands o (by simp [Action.operands, ho])
    have hSpareMem (t : Slot) (ht : t ∈ spare) : t ∈ l.spares.flatten.flatten :=
      List.mem_flatten_of_mem hFaces.spare ht
    have hNodup : spare.Nodup := by
      have hAll := (List.nodup_append.mp hSound.nodup_slots).2.1
      exact (List.nodup_flatten.mp hAll).1 spare hFaces.spare
    have hValues : (parts.map l.slot).map (a.scope[·]?) = (parts.map v).map some := by
      rw [List.map_map, List.map_map]
      exact List.map_congr_left fun o ho => (hParts o ho).2
    have hApart : ∀ t ∈ parts.map l.slot, t ∉ spare := by
      intro t ht hMem
      obtain ⟨o, ho, rfl⟩ := List.mem_map.mp ht
      exact hSound.slot_ne_spare (hParts o ho).1 (hSpareMem _ hMem) rfl
    have hBound : ∀ t ∈ spare, t < a.scope.size := fun t ht =>
      Nat.lt_of_lt_of_le (hSound.spare_lt (hSpareMem t ht)) hHolds.size
    have hJoined : spare.length = (parts.map l.slot).length := by
      rw [List.length_map]
      exact hLength
    obtain ⟨after, hQuiet, hSize, hValue, hOther⟩ := Action.joinCode_quiet constants
      hJoined (Scope.lt_size_of_some hResult.2) hFirst.2 hValues hApart hNodup hBound
    refine ⟨(v first).join (parts.map v), after, ?_, hQuiet, ?_⟩
    · cases parts with
      | nil => rfl
      | cons second parts =>
        rw [List.map_cons, Value.join_cons, ← List.map_cons, ← List.map_cons, List.flatMap_map]
        rfl
    · refine ⟨hSize.symm ▸ hHolds.size, fun o ho hUse => ?_⟩
      by_cases hEq : o = result
      · subst hEq
        rw [hValue]
        exact congrArg some (if_pos rfl).symm
      · have hFar : l.slot o ≠ l.slot result := fun hSlot =>
          hEq (hSound.slot_inj ho hResult.1 hSlot)
        have hSpare : l.slot o ∉ spare := fun hMem =>
          hSound.slot_ne_spare ho (hSpareMem _ hMem) rfl
        rw [hOther _ hFar hSpare, hHolds.values o ho hUse]
        exact congrArg some (if_neg hEq).symm

theorem Faces.single (hFaces : l.Faces g origin a v node rest b spare others)
    (hSingle : ∀ parts result, node.action ≠ .concatList parts result) :
    ∃ i, b.instrs[a.pc]? = some i ∧ (node.action.code l.toPlacement spare).length = 1 ∧
      ∀ constants, i.effect constants a.scope =
        (node.action.effect constants v).rename l.slot >>= fun e => pure (e.map l.toPlacement) := by
  have hJoints : node.action.joints = 0 := by
    cases hAction : node.action with
    | concatList parts result => exact absurd hAction (hSingle parts result)
    | _ => rfl
  have hSpare : spare = [] := List.eq_nil_of_length_eq_zero (hFaces.length.trans hJoints)
  subst hSpare
  obtain ⟨i, hCode, hEffect⟩ := Action.exists_instr hFaces.lowerable l.toPlacement hSingle
  have hAhead := hFaces.code
  rw [hCode] at hAhead ⊢
  exact ⟨i, (instr_of_drop hAhead).1, rfl, fun constants =>
    hEffect constants v a.scope fun o ho => (hFaces.operands o ho).2⟩

theorem Faces.length_code (hFaces : l.Faces g origin a v node rest b spare others) :
    (node.action.code l.toPlacement spare).length = node.action.cost := by
  rw [Action.length_code hFaces.lowerable l.toPlacement hFaces.length,
    Action.cost_eq hFaces.lowerable]

/-- A node that costs too much stops the machine as well, even if only in the middle of a list. -/
theorem Follows.answers_over (hSound : l.Sound g roots)
    (hF : l.Follows g limits h origin a spares w s)
    (hFaces : l.Faces g origin a w.valuation node rest b spare others) {m : Nat}
    (hMax : limits.maxSteps = some m) (hOver : m < w.steps + node.action.cost) :
    l.Answers g limits h s
      (.halt { w with rest, steps := w.steps + node.action.cost } (some (.stepLimit m))) := by
  have hStill : w.steps ≤ m := (overLimit_eq_none_iff limits w.steps).mp hF.within m hMax
  have hCounted := Limits.counted_of_over hMax hOver
  by_cases hList : ∃ parts result, node.action = .concatList parts result
  · obtain ⟨parts, result, hAction⟩ := hList
    obtain ⟨x, after, -, hQuiet, -⟩ := hFaces.quiet hSound hF.holds hAction h.constants
    rw [← hFaces.length_code] at hOver
    obtain ⟨t, failure, hHalts, hFault, hShows⟩ :=
      hQuiet.halts_over hF.shows hF.running rfl hFaces.block hFaces.code hMax hStill hOver
    exact ⟨t, some failure, hHalts, congrArg some hFault, hCounted ▸ hShows⟩
  · have hSingle : ∀ parts result, node.action ≠ .concatList parts result :=
      fun parts result hAction => hList ⟨parts, result, hAction⟩
    obtain ⟨i, hInstr, hLength, -⟩ := hFaces.single hSingle
    rw [← hFaces.length_code, hLength] at hOver
    obtain ⟨t, failure, hStep, hFault, hShows⟩ := step_limit hF.shows
      ⟨hF.running, hFaces.block, hInstr⟩ (overLimit_eq_some hMax hOver)
    have hEq : w.steps = m := by omega
    rw [hEq] at hShows
    exact ⟨t, some failure, .of_step hStep, congrArg some hFault, hCounted ▸ hShows⟩

/-- A single instruction takes the machine to where its effect takes the walk. -/
theorem Follows.answers_effect (hSound : l.Sound g roots)
    (hF : l.Follows g limits h origin a spares w s)
    (hFaces : l.Faces g origin a w.valuation node rest b spare others)
    (hRest : w.rest = node :: rest) (hWithin : overLimit limits (w.steps + 1) = none) {i : Instr}
    (hInstr : b.instrs[a.pc]? = some i)
    (hLength : (node.action.code l.toPlacement spare).length = 1)
    {effect : Effect OperandId BlockId} {warnings : List String}
    (hEffect : i.effect h.constants a.scope [] = .ok (effect.map l.toPlacement) warnings)
    (hOf : effect.Of node.action) :
    l.Answers g limits h s (Walk.perform g
      { w with rest, steps := w.steps + 1, warnings := w.warnings ++ warnings } effect) := by
  have hAt : s.At (l.program g) a b (some i) := ⟨hF.running, hFaces.block, hInstr⟩
  cases effect with
  | store writes =>
    obtain ⟨after, hWrite, hHolds⟩ :=
      hSound.holds_writeAll hF.holds fun w hw => (hFaces.operands w.1 (hOf w hw)).1
    obtain ⟨t, hStep, hRunning, hShows⟩ := step_store hF.shows hAt hWithin hEffect hWrite
    exact ⟨1, t, origin, _, others, Nat.one_pos, .single hStep,
      hF.next hFaces hRest hLength.symm hRunning hHolds hShows hWithin⟩
  | output bytes =>
    obtain ⟨t, hStep, hRunning, hShows⟩ := step_output hF.shows hAt hWithin hEffect
    exact ⟨1, t, origin, _, others, Nat.one_pos, .single hStep,
      hF.next hFaces hRest hLength.symm hRunning hF.holds hShows hWithin⟩
  | transfer target =>
    have hTarget := hFaces.targets target hOf
    obtain ⟨nodes, hNodes⟩ := Option.isSome_iff_exists.mp (hSound.covers target hTarget).exist
    obtain ⟨spares', hSpares, hJoints, hBlock⟩ := hSound.block?_label hTarget
    obtain ⟨t, hStep, hRunning, hShows⟩ := step_transfer hF.shows hAt hWithin hEffect hBlock
    have hFollows := hSound.follows_enter hTarget hSpares hJoints hBlock hRunning
      (fun o ho hTemporary => CodeBlock.grow_of_some _ (hF.holds.values o ho (.inl hTemporary)))
      hShows hWithin
    rw [Walk.perform, Walk.enter, hNodes]
    rw [Graph.nodes_eq hNodes] at hFollows
    exact ⟨1, t, target, _, spares', Nat.one_pos, .single hStep, hFollows⟩

/-- A node within the limit takes the machine to where the walk goes on, or stops it with the
fault that stops the walk. -/
theorem Follows.answers_within (hSound : l.Sound g roots)
    (hF : l.Follows g limits h origin a spares w s)
    (hFaces : l.Faces g origin a w.valuation node rest b spare others)
    (hRest : w.rest = node :: rest)
    (hWithin : overLimit limits (w.steps + node.action.cost) = none) :
    l.Answers g limits h s
      (match node.action.effect h.constants w.valuation [] with
        | .ok effect warnings => Walk.perform g
            { w with rest, steps := w.steps + node.action.cost, warnings := w.warnings ++ warnings }
            effect
        | .error fault warnings => .halt
            { w with rest, steps := w.steps + node.action.cost, warnings := w.warnings ++ warnings }
            (some fault)) := by
  have hCost := hFaces.length_code
  by_cases hList : ∃ parts result, node.action = .concatList parts result
  · obtain ⟨parts, result, hAction⟩ := hList
    obtain ⟨x, after, hEffect, hQuiet, hHolds⟩ := hFaces.quiet hSound hF.holds hAction h.constants
    rw [← hCost] at hWithin ⊢
    obtain ⟨t, hPasses, hRunning, hShows⟩ :=
      hQuiet.passes hF.shows hF.running rfl hFaces.block hFaces.code hWithin
    have hPos : 0 < (node.action.code l.toPlacement spare).length := by
      rw [Action.length_code hFaces.lowerable l.toPlacement hFaces.length]
      omega
    have hNext := hF.next hFaces hRest rfl hRunning hHolds hShows hWithin
    rw [← List.append_nil w.warnings] at hNext
    rw [hEffect]
    exact ⟨_, t, origin, _, others, hPos, hPasses, hNext⟩
  · have hSingle : ∀ parts result, node.action ≠ .concatList parts result :=
      fun parts result hAction => hList ⟨parts, result, hAction⟩
    obtain ⟨i, hInstr, hLength, hRename⟩ := hFaces.single hSingle
    have hEnsures := Action.effect_ensures hFaces.lowerable.supported h.constants w.valuation []
    rw [← hCost, hLength] at hWithin ⊢
    cases hResult : node.action.effect h.constants w.valuation [] with
    | ok effect warnings =>
      rw [hResult] at hEnsures
      have hEffect : i.effect h.constants a.scope [] = .ok (effect.map l.toPlacement) warnings := by
        rw [hRename, Outcome.bind_of_ok (Eval.rename_of_ok hResult)]
        rfl
      exact hF.answers_effect hSound hFaces hRest hWithin hInstr hLength hEffect hEnsures
    | error fault warnings =>
      have hEffect : i.effect h.constants a.scope [] = .error (fault.map l.slot) warnings := by
        rw [hRename, Outcome.bind_of_error (Eval.rename_of_error hResult)]
      obtain ⟨t, failure, hStep, hFault, hShows⟩ :=
        step_fault hF.shows ⟨hF.running, hFaces.block, hInstr⟩ hWithin hEffect
      refine ⟨t, some failure, .of_step hStep, congrArg some hFault, ?_⟩
      dsimp only
      rw [Limits.counted_of_within hWithin]
      exact hShows

end Node

theorem Follows.answers (hSound : l.Sound g roots)
    (hF : l.Follows g limits h origin a spares w s) :
    l.Answers g limits h s (Walk.step g h.constants limits.maxSteps w) := by
  rw [Walk.step]
  split
  · rename_i hRest
    exact hF.answers_end hRest
  · rename_i node rest hRest
    obtain ⟨b, spare, others, hFaces⟩ := hF.faces hSound hRest
    dsimp only
    split
    · rename_i m hOver
      obtain ⟨hMax, hLt⟩ := Option.filter_eq_some_iff.mp hOver
      exact hF.answers_over hSound hFaces hMax (of_decide_eq_true hLt)
    · rename_i hFree
      have hWithin : overLimit limits (w.steps + node.action.cost) = none := by
        rw [overLimit_eq_none_iff]
        intro m hMax
        simpa using Option.filter_eq_none_iff.mp hFree m hMax
      exact hF.answers_within hSound hFaces hRest hWithin

end Layout

end BlockMachine
