import BlockMachine.Lowering.Checks
import BlockMachine.Proofs.Lowering.Blocks
import Mathlib.Data.List.Basic

/-!
# Lowering checks as it goes
Lowering a node or a block stops at the first of its obligations that is not met. Checking and
lowering are interleaved, so what a computation checks is said together with what it registers.
-/

namespace BlockMachine
set_option autoImplicit false

namespace Draft

def Resolves (d : Draft) (g : Graph) : Prop := ∀ b ∈ d.registered, (g.block? b).isSome = true

end Draft

namespace Graph

variable {g : Graph}

theorem blockRefusal?_eq_none_iff {b : BlockId} :
    g.blockRefusal? b = none ↔ (g.block? b).isSome = true := by
  rw [blockRefusal?]
  split <;> simp_all

theorem operandRefusal?_eq_none_iff {line : Option Nat} {o : OperandId} :
    g.operandRefusal? line o = none ↔ g.usable o = true := by
  rw [operandRefusal?, usable, literal?, isTemporary]
  cases g.operand? o with
  | none => simp
  | some operand =>
    cases operand with
    | literal l => cases l <;> simp [Literal.value?]
    | temporary name => simp
    | «variable» name => simp

end Graph

namespace Node

variable {g : Graph} {n : Node}

theorem kindRefusal?_eq_none_iff : n.kindRefusal? = none ↔ n.action.supported = true := by
  rw [kindRefusal?]
  cases n.action with
  | concatList parts result => cases parts <;> simp [Action.supported]
  | binary op => simp [Action.supported, Option.isSome_iff_ne_none]
  | assign | constFetch | call | jump | branch | declare | echo | ret => simp [Action.supported]

theorem duties_eq (n : Node) : n.duties = .node n .supported ::
    ((n.action.operands.map fun o => .node n (.operand o)) ++
      n.action.targets.map fun b => .node n (.block b)) := by
  rw [duties, Action.checks, List.map_cons, List.map_append, List.map_map, List.map_map]
  rfl

theorem forall_duties_iff : (∀ ob ∈ n.duties, ob.refusal? g = none) ↔
    n.action.Lowerable g ∧ ∀ t ∈ n.action.targets, (g.block? t).isSome = true := by
  simp only [duties_eq, List.forall_mem_cons, List.forall_mem_append, List.forall_mem_map,
    Obligation.refusal?, refusal?, kindRefusal?_eq_none_iff, Graph.operandRefusal?_eq_none_iff,
    Graph.blockRefusal?_eq_none_iff]
  constructor
  · rintro ⟨hSupported, hUsable, hTargets⟩
    exact ⟨⟨hSupported, hUsable⟩, hTargets⟩
  · rintro ⟨hLowerable, hTargets⟩
    exact ⟨hLowerable.supported, hLowerable.usable, hTargets⟩

theorem block?_duties : n.duties.filterMap Obligation.block? = n.action.targets := by
  have hOperands : (n.action.operands.map fun o => Obligation.node n (.operand o)).filterMap
      Obligation.block? = [] := by
    rw [List.filterMap_map, List.filterMap_eq_nil_iff]
    exact fun o _ => rfl
  have hTargets : (n.action.targets.map fun b => Obligation.node n (.block b)).filterMap
      Obligation.block? = n.action.targets := by
    rw [List.filterMap_map]
    exact List.filterMap_some
  rw [duties_eq, List.filterMap_cons_none rfl, List.filterMap_append, hOperands, hTargets,
    List.nil_append]

end Node

namespace Graph

theorem block?_duties (g : Graph) (b : BlockId) :
    (g.duties b).filterMap Obligation.block? = Node.targets (g.nodes b) := by
  rw [duties, List.filterMap_flatMap, Node.targets]
  exact List.flatMap_congr fun n _ => Node.block?_duties

end Graph

theorem Refusal.orLine_line? (r : Refusal) : r.orLine r.line? = r := by
  have hSame (line : Option Nat) : (line <|> line) = line := by cases line <;> rfl
  cases r with
  | unhandledNode | notImplemented | unsupportedOperator | unsupportedLiteral | unknownOperand
  | emptyConcatList => simp only [orLine, line?, hSame]
  | danglingOperand | unknownBlock | noRootBlocks | internal => rfl

/-- What an obligation is refused with is about a node or a block, and if it is of a kind that has a
line, it names the line of the node. -/
theorem Obligation.of_refused {g : Graph} {ob : Obligation} {r : Refusal}
    (h : ob.refusal? g = some r) :
    r ≠ .noRootBlocks ∧ r.line? = if r.hasLine then ob.line else none := by
  have hBlock {b : BlockId} (h : g.blockRefusal? b = some r) : r = .unknownBlock b := by
    rw [Graph.blockRefusal?] at h
    split at h
    · cases h
    · exact (Option.some.inj h).symm
  cases ob with
  | root b =>
    rw [hBlock h]
    exact ⟨nofun, rfl⟩
  | node n c =>
    cases c with
    | supported =>
      rw [refusal?, Node.refusal?, Node.kindRefusal?] at h
      split at h
      · split at h
        · cases h
        · cases h
          exact ⟨nofun, rfl⟩
      all_goals
        cases h
      all_goals
        exact ⟨nofun, rfl⟩
    | operand o =>
      rw [refusal?, Node.refusal?, Graph.operandRefusal?] at h
      split at h
      all_goals
        cases h
      all_goals
        exact ⟨nofun, rfl⟩
    | block b =>
      rw [hBlock h]
      exact ⟨nofun, rfl⟩

namespace Lowering

open Draft

variable {α β : Type} {g : Graph} {pass : Refusal → Refusal} {obs obs' : List Obligation}
  {ob : Obligation} {r : Refusal} {n : Node}

/-- A computation that stops at the first of the obligations that is not met, with its refusal once
that is passed on. If all are met, the blocks they refer to are registered. -/
structure Meets (g : Graph) (pass : Refusal → Refusal) (obs : List Obligation) (x : Lowering α) :
    Prop where
  ok : ∀ {d a d'}, d.Resolves g → x d = .ok a d' →
    (∀ ob ∈ obs, ob.refusal? g = none) ∧ Registers g d d' (obs.filterMap Obligation.block?)
  error : ∀ {d r d'}, d.Resolves g → x d = .error r d' →
    obs.findSome? (Obligation.refusal? g) = some (pass r)

namespace Meets

variable {x : Lowering α} {f : α → Lowering β}

theorem of_ok (h : ∀ d, ∃ a d', x d = .ok a d' ∧ d'.registered = d.registered) :
    Meets g pass [] x where
  ok {d a d'} _ hx := by
    obtain ⟨a', d'', hOk, hSame⟩ := h d
    rw [hOk] at hx
    cases hx
    exact ⟨fun _ hob => (List.not_mem_nil hob).elim, Registers.of_registered hSame⟩
  error {d r d'} _ hx := by
    obtain ⟨a', d'', hOk, -⟩ := h d
    rw [hOk] at hx
    cases hx

theorem pure (a : α) : Meets g pass [] (Pure.pure a : Lowering α) := of_ok fun d => ⟨a, d, rfl, rfl⟩

theorem of_eq (h : Meets g pass obs x) (hObs : obs = obs') : Meets g pass obs' x := hObs ▸ h

theorem bind (hx : Meets g pass obs x) (hf : ∀ a, Meets g pass obs' (f a)) :
    Meets g pass (obs ++ obs') (x >>= f) where
  ok hd h := by
    obtain ⟨a, d₁, hFirst, hRest⟩ := Outcome.bind_eq_ok_iff.mp h
    obtain ⟨hMet, hRegisters⟩ := hx.ok hd hFirst
    obtain ⟨hMet', hRegisters'⟩ := (hf a).ok (hRegisters.exist hd) hRest
    refine ⟨List.forall_mem_append.mpr ⟨hMet, hMet'⟩, ?_⟩
    rw [List.filterMap_append]
    exact hRegisters.trans hRegisters'
  error hd h := by
    rw [List.findSome?_append]
    rcases Outcome.bind_eq_error_iff.mp h with hFirst | ⟨a, d₁, hFirst, hRest⟩
    · rw [hx.error hd hFirst]
      rfl
    · obtain ⟨hMet, hRegisters⟩ := hx.ok hd hFirst
      rw [List.findSome?_eq_none_iff.mpr hMet, (hf a).error (hRegisters.exist hd) hRest]
      rfl

theorem step (hx : Meets g pass [ob] x) (hf : ∀ a, Meets g pass obs (f a)) :
    Meets g pass (ob :: obs) (x >>= f) := hx.bind hf

theorem refused (h : ob.refusal? g = some (pass r)) :
    Meets g pass (ob :: obs) (throw r : Lowering α) where
  ok _ hx := nomatch hx
  error _ hx := by
    cases hx
    rw [List.findSome?_cons, h]

theorem cons (h : ob.refusal? g = none) (hBlock : ob.block? = none) (hx : Meets g pass obs x) :
    Meets g pass (ob :: obs) x where
  ok hd hOk := by
    obtain ⟨hMet, hRegisters⟩ := hx.ok hd hOk
    rw [List.filterMap_cons, hBlock]
    exact ⟨List.forall_mem_cons.mpr ⟨h, hMet⟩, hRegisters⟩
  error hd hError := by
    rw [List.findSome?_cons, h]
    exact hx.error hd hError

theorem adapt (h : Meets g pass obs x) : Meets g id obs (EStateM.adaptExcept pass x) where
  ok hd hOk := h.ok hd (Outcome.adaptExcept_eq_ok_iff.mp hOk)
  error {d r d'} hd hError := by
    cases hx : x d with
    | ok a t =>
      rw [Outcome.adaptExcept_of_ok hx] at hError
      cases hError
    | error e t =>
      rw [Outcome.adaptExcept_of_error hx] at hError
      cases hError
      exact h.error hd hx

end Meets

theorem emit_meets (i : Instr) (line : Option Nat) : Meets g pass [] (emit i line) :=
  .of_ok fun _ => ⟨_, _, rfl, rfl⟩

theorem slotFor_meets (o : OperandId) : Meets g pass [] (slotFor o) := by
  apply Meets.of_ok
  intro d
  cases hFound : d.slotOf.lookup o with
  | some s => exact ⟨s, d, by rw [slotFor, hFound], rfl⟩
  | none =>
    refine ⟨d.nextSlot, { d with
      slotOf := d.slotOf ++ [(o, d.nextSlot)], nextSlot := d.nextSlot + 1 }, ?_, rfl⟩
    rw [slotFor, hFound]

theorem useConstant_meets (c : Constant) : Meets g pass [] (useConstant c) :=
  .of_ok fun _ => ⟨_, _, rfl, rfl⟩

theorem useTemporary_meets (o : OperandId) (s : Slot) : Meets g pass [] (useTemporary o s) :=
  .of_ok fun _ => ⟨_, _, rfl, rfl⟩

theorem freshSlot_meets : Meets g pass [] freshSlot := .of_ok fun _ => ⟨_, _, rfl, rfl⟩

theorem labelFor_meets {b : BlockId} (hRefusal : ob.refusal? g = g.blockRefusal? b)
    (hBlock : ob.block? = some b) (hPass : pass (.unknownBlock b) = .unknownBlock b) :
    Meets g pass [ob] (labelFor g b) where
  ok {d a d'} hd h := by
    obtain ⟨hMem, hAdvance⟩ := labelFor_ok h
    have hExists := hAdvance.exist hd b (List.mem_of_getElem? hMem)
    constructor
    · rw [List.forall_mem_singleton, hRefusal, Graph.blockRefusal?_eq_none_iff]
      exact hExists
    · rw [List.filterMap_cons, hBlock]
      exact hAdvance.toRegisters
  error {d r d'} hd h := by
    rw [labelFor] at h
    split at h
    · cases h
    · split at h
      · rename_i hNone
        cases h
        rw [List.findSome?_cons, hRefusal, Graph.blockRefusal?, if_neg (by simpa using hNone), hPass]
      · cases h

theorem lowerOperand_meets (n : Node) (o : OperandId) :
    Meets g (Refusal.orLine n.line) [.node n (.operand o)] (lowerOperand g o) := by
  have hUsable (hUse : g.usable o = true) {x : Lowering Slot}
      (hx : Meets g (Refusal.orLine n.line) [] x) :
      Meets g (Refusal.orLine n.line) [.node n (.operand o)] x :=
    .cons (Graph.operandRefusal?_eq_none_iff.mpr hUse) rfl hx
  have hRefused {r : Refusal} (hr : g.operandRefusal? n.line o = some (r.orLine n.line)) :
      Meets g (Refusal.orLine n.line) [.node n (.operand o)] (throw r : Lowering Slot) :=
    .refused hr
  cases hOperand : g.operand? o with
  | none =>
    rw [lowerOperand, hOperand]
    exact hRefused (by rw [Graph.operandRefusal?, hOperand]; rfl)
  | some operand =>
    cases operand with
    | literal l =>
      rw [lowerOperand, hOperand]
      dsimp only
      cases l with
      | string | integer =>
        refine hUsable (by simp [Graph.usable, Graph.literal?, hOperand, Literal.value?]) ?_
        exact .bind (slotFor_meets o) fun s => useConstant_meets _
      | float | boolean | null =>
        exact hRefused (by rw [Graph.operandRefusal?, hOperand]; rfl)
    | temporary name =>
      rw [lowerOperand, hOperand]
      refine hUsable (by simp [Graph.usable, Graph.isTemporary, hOperand]) ?_
      exact .bind (slotFor_meets o) fun s => .bind (useTemporary_meets o s) fun _ => .pure s
    | «variable» name =>
      rw [lowerOperand, hOperand]
      exact hRefused (by rw [Graph.operandRefusal?, hOperand]; rfl)

theorem lowerParts_meets (n : Node) (line : Option Nat) (joined : Slot) (parts : List OperandId) :
    Meets g (Refusal.orLine n.line) (parts.map fun o => .node n (.operand o))
      (lowerParts g line joined parts) := by
  induction parts generalizing joined with
  | nil => exact .pure joined
  | cons part parts ih =>
    refine .step (lowerOperand_meets n part) fun right => ?_
    refine .bind freshSlot_meets fun next => ?_
    exact .bind (emit_meets _ line) fun _ => ih next

theorem lowerQualified_meets (n : Node) (qualified : Option OperandId) :
    Meets g (Refusal.orLine n.line) (qualified.toList.map fun o => .node n (.operand o))
      (qualified.mapM (lowerOperand g)) := by
  cases qualified with
  | none => exact .pure none
  | some o =>
    rw [Option.mapM_some, map_eq_pure_bind]
    exact .bind (lowerOperand_meets n o) fun s => .pure (some s)

theorem lowerConcatList_meets (n : Node) (line : Option Nat) (first : OperandId)
    (rest : List OperandId) (result : OperandId) :
    Meets g (Refusal.orLine n.line) ((first :: rest ++ [result]).map fun o => .node n (.operand o))
      (lowerConcatList g line (first :: rest) result) := by
  rw [List.cons_append, List.map_cons, List.map_append]
  refine .step (lowerOperand_meets n first) fun joined => ?_
  refine .bind (lowerParts_meets n line joined rest) fun last => ?_
  refine .step (lowerOperand_meets n result) fun s => ?_
  exact emit_meets _ line

theorem target_meets (n : Node) (b : BlockId) :
    Meets g (Refusal.orLine n.line) [.node n (.block b)] (labelFor g b) := labelFor_meets rfl rfl rfl

/-- Lowering looks at the kind of a node before it looks at operands and targets. -/
theorem lowerNode_meets (n : Node) : Meets g (Refusal.orLine n.line) n.duties (lowerNode g n) := by
  have hSupported {x : Lowering Unit} {obs : List Obligation} (h : n.action.supported = true)
      (hx : Meets g (Refusal.orLine n.line) obs x) :
      Meets g (Refusal.orLine n.line) (.node n .supported :: obs) x :=
    .cons (Node.kindRefusal?_eq_none_iff.mpr h) rfl hx
  have hRefused {obs : List Obligation} {r : Refusal} (h : n.kindRefusal? = some r)
      (hLine : r.line? = n.line) :
      Meets g (Refusal.orLine n.line) (.node n .supported :: obs) (throw r : Lowering Unit) := by
    apply Meets.refused
    rw [← hLine, Refusal.orLine_line?]
    exact h
  rw [Node.duties_eq]
  obtain ⟨action, line⟩ := n
  cases action with
  | binary op left right result =>
    rw [lowerNode]
    dsimp only
    cases hOp : op.operator? with
    | none => exact hRefused (by simp [Node.kindRefusal?, hOp]) rfl
    | some operator =>
      apply hSupported (by simp [Action.supported, hOp])
      refine .step (lowerOperand_meets _ result) fun s₁ => ?_
      refine .step (lowerOperand_meets _ left) fun s₂ => ?_
      refine .step (lowerOperand_meets _ right) fun s₃ => ?_
      exact emit_meets _ line
  | assign var expr result =>
    apply hSupported rfl
    refine .step (lowerOperand_meets _ result) fun s₁ => ?_
    refine .step (lowerOperand_meets _ var) fun s₂ => ?_
    refine .step (lowerOperand_meets _ expr) fun s₃ => ?_
    exact emit_meets _ line
  | concatList parts result =>
    cases parts with
    | nil => exact hRefused rfl rfl
    | cons first rest =>
      apply hSupported rfl
      refine .of_eq ?_ (List.append_nil _).symm
      exact lowerConcatList_meets _ line first rest result
  | constFetch name qualified result =>
    apply hSupported rfl
    refine .step (lowerOperand_meets _ result) fun s₁ => ?_
    refine .step (lowerOperand_meets _ name) fun s₂ => ?_
    exact .bind (lowerQualified_meets _ qualified) fun s₃ => emit_meets _ line
  | call name args result => exact hRefused rfl rfl
  | jump target =>
    apply hSupported rfl
    exact .step (target_meets _ target) fun l => emit_meets _ line
  | branch cond ifTrue ifFalse =>
    apply hSupported rfl
    refine .step (lowerOperand_meets _ cond) fun s => ?_
    refine .step (target_meets _ ifTrue) fun l₁ => ?_
    refine .step (target_meets _ ifFalse) fun l₂ => ?_
    exact emit_meets _ line
  | declare kind name => exact hRefused rfl rfl
  | echo expr =>
    apply hSupported rfl
    exact .step (lowerOperand_meets _ expr) fun s => emit_meets _ line
  | ret expr => exact hRefused rfl rfl

theorem lowerNodes_meets (nodes : List Node) :
    Meets g id (nodes.flatMap Node.duties) (lowerNodes g nodes) := by
  induction nodes with
  | nil => exact .pure ()
  | cons n nodes ih =>
    rw [List.flatMap_cons]
    exact .bind (lowerNode_meets n).adapt fun _ => ih

theorem lowerBlock_meets (label : Label) {b : BlockId} (h : (g.block? b).isSome = true) :
    Meets g id (g.duties b) (lowerBlock g label b) := by
  obtain ⟨nodes, hBlock⟩ := Option.isSome_iff_exists.mp h
  rw [lowerBlock, hBlock, Graph.duties, Graph.nodes_eq hBlock]
  have hBegin : Meets g id [] (beginBlock label b) := .of_ok fun _ => ⟨_, _, rfl, rfl⟩
  have hFinish : Meets g id [] finishBlock := .of_ok fun _ => ⟨_, _, rfl, rfl⟩
  have hAll := hBegin.bind fun _ => (lowerNodes_meets (g := g) nodes).bind fun _ => hFinish
  exact hAll.of_eq (List.append_nil _)

end Lowering

end BlockMachine
