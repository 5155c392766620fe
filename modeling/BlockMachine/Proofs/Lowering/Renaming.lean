import BlockMachine.Lowering.Renaming
import BlockMachine.Proofs.Lowering.Termination
import Mathlib.Logic.Equiv.Basic

/-!
# Numbers do not matter
Lowering compares blocks and operands and stores them, and does nothing else with their numbers. So
two graphs that show the same from their roots, except for the numbers, lower in step: every draft
of the one is the draft of the other under the new numbers.
-/

namespace BlockMachine
set_option autoImplicit false

theorem lookup_map_of_injective {α β γ : Type} [BEq α] [LawfulBEq α] [BEq β] [LawfulBEq β]
    {f : α → β} (hf : Function.Injective f) (a : α) (entries : List (α × γ)) :
    (entries.map fun e => (f e.1, e.2)).lookup (f a) = entries.lookup a := by
  induction entries with
  | nil => rfl
  | cons e entries ih =>
    obtain ⟨b, c⟩ := e
    rw [List.map_cons, List.lookup_cons, List.lookup_cons, ih]
    by_cases h : a = b
    · rw [h, beq_self_eq_true, beq_self_eq_true]
    · rw [beq_false_of_ne h, beq_false_of_ne (fun hf' => h (hf hf'))]

theorem idxOf?_map_of_injective {α β : Type} [BEq α] [LawfulBEq α] [BEq β] [LawfulBEq β]
    {f : α → β} (hf : Function.Injective f) (a : α) (xs : List α) :
    (xs.map f).idxOf? (f a) = xs.idxOf? a := by
  rw [List.idxOf?, List.findIdx?_map, List.idxOf?]
  congr 1
  funext x
  by_cases h : x = a
  · simp [h]
  · simp [h, hf.ne h]

namespace Renaming

def event (r : Renaming) : Lowering.Event → Lowering.Event
  | .emitted block instr => .emitted block instr
  | .blockDone block origin instrs => .blockDone block (r.block origin) instrs
  | .programDone blocks slots entry => .programDone blocks slots entry

def draft (r : Renaming) (d : Draft) : Draft where
  registered := d.registered.map r.block
  finished := d.finished.map r.codeBlock
  current := r.codeBlock d.current
  slotOf := d.slotOf.map fun e => (r.operand e.1, e.2)
  nextSlot := d.nextSlot
  events := d.events.map r.event

/-- Where the one computation succeeds, the other does so under the new numbers, with the same
result. -/
structure Shadows {α : Type} (r : Renaming) (x y : Lowering α) : Prop where
  ok : ∀ {d : Draft} {a : α} {d' : Draft}, x d = .ok a d' → y (r.draft d) = .ok a (r.draft d')

variable {r : Renaming} {g g' : Graph}

section Blocks

theorem mem_slotTable {t : SlotTable} {e : OperandId × Slot} : e ∈ (r.slotTable t).entries ↔
    e ∈ t.entries.map fun e => (r.operand e.1, e.2) := by
  apply SlotTable.mem_ofList_iff
  have hKeys := t.nodup_keys.map r.operand_injective
  rw [List.map_map] at hKeys ⊢
  exact hKeys

theorem slotTable_insert (t : SlotTable) (o : OperandId) (s : Slot) :
    r.slotTable (t.insert o s) = (r.slotTable t).insert (r.operand o) s := by
  apply SlotTable.eq_of_mem_iff
  rintro ⟨x, u⟩
  simp only [mem_slotTable, SlotTable.mem_insert_iff, List.mem_map, Prod.mk.injEq]
  constructor
  · rintro ⟨e, rfl | ⟨hNe, he⟩, rfl, rfl⟩
    · exact .inl ⟨rfl, rfl⟩
    · exact .inr ⟨r.operand_injective.ne hNe, e, he, rfl, rfl⟩
  · rintro (⟨rfl, rfl⟩ | ⟨hNe, e, he, rfl, rfl⟩)
    · exact ⟨(o, u), .inl rfl, rfl, rfl⟩
    · exact ⟨e, .inr ⟨fun hEq => hNe (congrArg r.operand hEq), he⟩, rfl, rfl⟩

theorem codeBlock_recordSlot (b : CodeBlock) (o : OperandId) (s : Slot) :
    r.codeBlock (b.recordSlot o s) = (r.codeBlock b).recordSlot (r.operand o) s := by
  rw [CodeBlock.recordSlot, codeBlock, slotTable_insert]
  rfl

theorem constant?_codeBlock (b : CodeBlock) (o : OperandId) :
    (r.codeBlock b).constant? (r.operand o) = (b.constant? o).map r.constant := by
  rw [CodeBlock.constant?, codeBlock, List.find?_map, CodeBlock.constant?]
  congr 2
  funext c
  simp [constant, r.operand_injective.eq_iff]

theorem registerConstant_codeBlock (b : CodeBlock) (c : Constant) :
    (r.codeBlock b).registerConstant (r.constant c) =
      ((b.registerConstant c).1, r.codeBlock (b.registerConstant c).2) := by
  have hFind : (r.codeBlock b).constant? (r.constant c).operand =
      (b.constant? c.operand).map r.constant := constant?_codeBlock b c.operand
  rw [CodeBlock.registerConstant, CodeBlock.registerConstant, hFind]
  cases b.constant? c.operand with
  | some d => rfl
  | none =>
    simp only [Option.map_none, codeBlock, List.map_append, List.map_cons, List.map_nil]
    rfl

end Blocks

namespace Shadows

variable {α β : Type} {x y : Lowering α} {f f' : α → Lowering β}

theorem pure (a : α) : r.Shadows (Pure.pure a : Lowering α) (Pure.pure a) := by
  refine ⟨fun {d b d'} h => ?_⟩
  cases h
  rfl

theorem throw {e : Refusal} : r.Shadows (MonadExcept.throw e : Lowering α) y := by
  refine ⟨fun {d a d'} h => ?_⟩
  cases h

theorem bind (hx : r.Shadows x y) (hf : ∀ a, r.Shadows (f a) (f' a)) :
    r.Shadows (x >>= f) (y >>= f') := by
  refine ⟨fun {d b d'} h => ?_⟩
  obtain ⟨a, d₁, hFirst, hRest⟩ := Outcome.bind_eq_ok_iff.mp h
  exact Outcome.bind_eq_ok_iff.mpr ⟨a, r.draft d₁, hx.ok hFirst, (hf a).ok hRest⟩

theorem adapt (hx : r.Shadows x y) (pass pass' : Refusal → Refusal) :
    r.Shadows (EStateM.adaptExcept pass x) (EStateM.adaptExcept pass' y) := by
  refine ⟨fun {d a d'} h => ?_⟩
  exact Outcome.adaptExcept_eq_ok_iff.mpr (hx.ok (Outcome.adaptExcept_eq_ok_iff.mp h))

end Shadows

section Drafts

open Lowering

theorem freshSlot_shadows : r.Shadows freshSlot freshSlot := by
  refine ⟨fun {d s d'} h => ?_⟩
  cases h
  rfl

theorem emit_shadows (i : Instr) (line : Option Nat) : r.Shadows (emit i line) (emit i line) := by
  refine ⟨fun {d u d'} h => ?_⟩
  cases h
  simp only [emit, draft, List.map_append, List.map_cons, List.map_nil]
  rfl

theorem slotFor_shadows (o : OperandId) : r.Shadows (slotFor o) (slotFor (r.operand o)) := by
  refine ⟨fun {d s d'} h => ?_⟩
  have hLookup : (r.draft d).slotOf.lookup (r.operand o) = d.slotOf.lookup o :=
    lookup_map_of_injective r.operand_injective o d.slotOf
  rw [slotFor] at h
  rw [slotFor, hLookup]
  cases hFound : d.slotOf.lookup o with
  | some t =>
    rw [hFound] at h
    cases h
    rfl
  | none =>
    rw [hFound] at h
    cases h
    simp only [draft, List.map_append, List.map_cons, List.map_nil]

theorem useConstant_shadows (c : Constant) :
    r.Shadows (useConstant c) (useConstant (r.constant c)) := by
  refine ⟨fun {d s d'} h => ?_⟩
  cases h
  have hRegister : (r.draft d).current.registerConstant (r.constant c) = _ :=
    registerConstant_codeBlock d.current c
  rw [useConstant, hRegister]
  rfl

theorem useTemporary_shadows (o : OperandId) (s : Slot) :
    r.Shadows (useTemporary o s) (useTemporary (r.operand o) s) := by
  refine ⟨fun {d u d'} h => ?_⟩
  cases h
  exact congrArg (fun current => EStateM.Result.ok () { r.draft d with current })
    (codeBlock_recordSlot d.current o s).symm

theorem labelFor_shadows {b : BlockId}
    (hExists : (g.block? b).isSome = true → (g'.block? (r.block b)).isSome = true) :
    r.Shadows (labelFor g b) (labelFor g' (r.block b)) := by
  refine ⟨fun {d l d'} h => ?_⟩
  have hIndex : (r.draft d).registered.idxOf? (r.block b) = d.registered.idxOf? b :=
    idxOf?_map_of_injective r.block_injective b d.registered
  rw [labelFor] at h
  rw [labelFor, hIndex]
  cases hFound : d.registered.idxOf? b with
  | some i =>
    rw [hFound] at h
    cases h
    rfl
  | none =>
    rw [hFound] at h
    dsimp only at h
    split at h
    · cases h
    · rename_i hSome
      cases h
      have hThere := hExists (by simpa [Option.isSome_iff_ne_none] using hSome)
      dsimp only
      rw [if_neg (by simpa [Option.isSome_iff_ne_none] using hThere)]
      simp only [draft, List.map_append, List.map_cons, List.map_nil, List.length_map]

theorem beginBlock_shadows (l : Label) (b : BlockId) :
    r.Shadows (beginBlock l b) (beginBlock l (r.block b)) := by
  refine ⟨fun {d u d'} h => ?_⟩
  cases h
  rfl

theorem finishBlock_shadows : r.Shadows finishBlock finishBlock := by
  refine ⟨fun {d u d'} h => ?_⟩
  cases h
  simp only [finishBlock, draft, List.map_append, List.map_cons, List.map_nil]
  rfl

end Drafts

section Nodes

open Lowering

theorem lowerOperand_shadows {o : OperandId} (h : g'.operand? (r.operand o) = g.operand? o) :
    r.Shadows (lowerOperand g o) (lowerOperand g' (r.operand o)) := by
  rw [lowerOperand, lowerOperand, h]
  cases g.operand? o with
  | none => exact .throw
  | some operand =>
    cases operand with
    | literal l =>
      dsimp only
      cases l.value? with
      | none => exact .throw
      | some v => exact .bind (slotFor_shadows o) fun s => useConstant_shadows ⟨o, s, v⟩
    | temporary name =>
      exact .bind (slotFor_shadows o) fun s => .bind (useTemporary_shadows o s) fun _ => .pure s
    | «variable» name => exact .throw

theorem lowerParts_shadows (line : Option Nat) (joined : Slot) {parts : List OperandId}
    (h : ∀ o ∈ parts, g'.operand? (r.operand o) = g.operand? o) :
    r.Shadows (lowerParts g line joined parts)
      (lowerParts g' line joined (parts.map r.operand)) := by
  induction parts generalizing joined with
  | nil => exact .pure joined
  | cons part parts ih =>
    obtain ⟨hHead, hTail⟩ := List.forall_mem_cons.mp h
    refine .bind (lowerOperand_shadows hHead) fun right => ?_
    refine .bind freshSlot_shadows fun next => ?_
    exact .bind (emit_shadows _ line) fun _ => ih next hTail

theorem lowerQualified_shadows {qualified : Option OperandId}
    (h : ∀ o ∈ qualified.toList, g'.operand? (r.operand o) = g.operand? o) :
    r.Shadows (qualified.mapM (lowerOperand g))
      ((qualified.map r.operand).mapM (lowerOperand g')) := by
  cases qualified with
  | none => exact .pure none
  | some o =>
    rw [Option.map_some, Option.mapM_some, Option.mapM_some, map_eq_pure_bind, map_eq_pure_bind]
    exact .bind (lowerOperand_shadows (h o List.mem_cons_self)) fun s => .pure (some s)

theorem lowerConcatList_shadows (line : Option Nat) {parts : List OperandId} {result : OperandId}
    (h : ∀ o ∈ parts ++ [result], g'.operand? (r.operand o) = g.operand? o) :
    r.Shadows (lowerConcatList g line parts result)
      (lowerConcatList g' line (parts.map r.operand) (r.operand result)) := by
  obtain ⟨hParts, hResult⟩ := List.forall_mem_append.mp h
  cases parts with
  | nil => exact .throw
  | cons first rest =>
    obtain ⟨hFirst, hRest⟩ := List.forall_mem_cons.mp hParts
    refine .bind (lowerOperand_shadows hFirst) fun joined => ?_
    refine .bind (lowerParts_shadows line joined hRest) fun last => ?_
    refine .bind (lowerOperand_shadows (hResult result List.mem_cons_self)) fun s => ?_
    exact emit_shadows _ line

theorem lowerNode_shadows {n : Node}
    (hOperands : ∀ o ∈ n.action.operands, g'.operand? (r.operand o) = g.operand? o)
    (hTargets : ∀ t ∈ n.action.targets,
      (g.block? t).isSome = true → (g'.block? (r.block t)).isSome = true) :
    r.Shadows (lowerNode g n) (lowerNode g' (r.node n)) := by
  obtain ⟨action, line⟩ := n
  cases action with
  | binary op left right result =>
    simp only [Action.operands, List.forall_mem_cons] at hOperands
    obtain ⟨hResult, hLeft, hRight, -⟩ := hOperands
    rw [lowerNode, node, lowerNode]
    dsimp only [Renaming.action]
    cases op.operator? with
    | none => exact .throw
    | some operator =>
      refine .bind (lowerOperand_shadows hResult) fun s₁ => ?_
      refine .bind (lowerOperand_shadows hLeft) fun s₂ => ?_
      refine .bind (lowerOperand_shadows hRight) fun s₃ => ?_
      exact emit_shadows _ line
  | assign var expr result =>
    simp only [Action.operands, List.forall_mem_cons] at hOperands
    obtain ⟨hResult, hVar, hExpr, -⟩ := hOperands
    refine .bind (lowerOperand_shadows hResult) fun s₁ => ?_
    refine .bind (lowerOperand_shadows hVar) fun s₂ => ?_
    refine .bind (lowerOperand_shadows hExpr) fun s₃ => ?_
    exact emit_shadows _ line
  | concatList parts result => exact lowerConcatList_shadows line hOperands
  | constFetch name qualified result =>
    obtain ⟨hNames, hQualified⟩ := List.forall_mem_append.mp hOperands
    simp only [List.forall_mem_cons] at hNames
    obtain ⟨hResult, hName, -⟩ := hNames
    refine .bind (lowerOperand_shadows hResult) fun s₁ => ?_
    refine .bind (lowerOperand_shadows hName) fun s₂ => ?_
    exact .bind (lowerQualified_shadows hQualified) fun s₃ => emit_shadows _ line
  | call name args result => exact .throw
  | jump target =>
    have hTarget := hTargets target List.mem_cons_self
    exact .bind (labelFor_shadows hTarget) fun l => emit_shadows _ line
  | branch cond ifTrue ifFalse =>
    have hTrue := hTargets ifTrue List.mem_cons_self
    have hFalse := hTargets ifFalse (List.mem_cons_of_mem _ List.mem_cons_self)
    refine .bind (lowerOperand_shadows (hOperands cond List.mem_cons_self)) fun s => ?_
    refine .bind (labelFor_shadows hTrue) fun l₁ => ?_
    refine .bind (labelFor_shadows hFalse) fun l₂ => ?_
    exact emit_shadows _ line
  | declare kind name => exact .throw
  | echo expr =>
    exact .bind (lowerOperand_shadows (hOperands expr List.mem_cons_self)) fun s =>
      emit_shadows _ line
  | ret expr => exact .throw

theorem lowerNodes_shadows {nodes : List Node}
    (hOperands : ∀ o ∈ Node.uses nodes, g'.operand? (r.operand o) = g.operand? o)
    (hTargets : ∀ t ∈ Node.targets nodes,
      (g.block? t).isSome = true → (g'.block? (r.block t)).isSome = true) :
    r.Shadows (lowerNodes g nodes) (lowerNodes g' (nodes.map r.node)) := by
  induction nodes with
  | nil => exact .pure ()
  | cons n nodes ih =>
    rw [Node.uses, List.flatMap_cons, List.forall_mem_append] at hOperands
    rw [Node.targets, List.flatMap_cons, List.forall_mem_append] at hTargets
    have hNode := lowerNode_shadows hOperands.1 hTargets.1
    exact .bind (hNode.adapt _ _) fun _ => ih hOperands.2 hTargets.2

variable {roots : List BlockId}

theorem Carries.exists_block (h : r.Carries g g' roots) {b : BlockId} (hb : g.Reachable roots b)
    (hExists : (g.block? b).isSome = true) : (g'.block? (r.block b)).isSome = true := by
  obtain ⟨nodes, hNodes⟩ := Option.isSome_iff_exists.mp hExists
  exact Option.isSome_of_eq_some (h.nodes b nodes hb hNodes)

theorem lowerBlock_shadows (h : r.Carries g g' roots) (l : Label) {b : BlockId}
    (hb : g.Reachable roots b) :
    r.Shadows (lowerBlock g l b) (lowerBlock g' l (r.block b)) := by
  refine .bind (beginBlock_shadows l b) fun _ => ?_
  cases hNodes : g.block? b with
  | none => exact .throw
  | some nodes =>
    rw [h.nodes b nodes hb hNodes]
    have hOperands := h.operands b hb
    rw [Graph.nodes_eq hNodes] at hOperands
    refine .bind (lowerNodes_shadows hOperands fun t ht => ?_) fun _ => finishBlock_shadows
    obtain ⟨n, hn, ht⟩ := List.mem_flatMap.mp ht
    exact h.exists_block (.step hb hNodes hn ht)

end Nodes

section Worklist

open Lowering Draft

variable {roots : List BlockId}

theorem labelFor_of_current {b : BlockId} {l : Label} {d d' : Draft} (c : CodeBlock)
    (h : labelFor g b d = .ok l d') :
    labelFor g b { d with current := c } = .ok l { d' with current := c } := by
  rw [labelFor] at h ⊢
  dsimp only
  split at h
  · cases h
    rfl
  · split at h
    · cases h
    · rename_i hExists
      cases h
      rw [if_neg hExists]

/-- Between two blocks it does not matter what was filled last, so drafts are compared without
it. -/
theorem worksOff_shadows (hCarries : r.Carries g g' roots) {rs : List BlockId} {d d' : Draft}
    (hRoots : ∀ b ∈ rs, b ∈ roots) {done : List BlockId} {spares : List (List (List Slot))}
    (hs : Settled g roots d done spares) (h : WorksOff g rs d (.ok () d')) (c : CodeBlock) :
    ∃ c', WorksOff g' (rs.map r.block) { r.draft d with current := c }
      (.ok () { r.draft d' with current := c' }) := by
  generalize hResult : EStateM.Result.ok () d' = result at h
  induction h generalizing done spares c with
  | @done d hNone =>
    cases hResult
    refine ⟨c, .done ?_⟩
    simp only [draft, List.length_map, List.getElem?_map, hNone, Option.map_none]
  | @block rs d d₁ b result hNext hBlock hRest ih =>
    have hb := hs.reachable b (List.mem_of_getElem? hNext)
    obtain ⟨spare, hs₁, -⟩ := lowerBlock_ok hs (hs.length ▸ hNext) hBlock
    obtain ⟨c', hRest'⟩ := ih hRoots hs₁ (r.draft d₁).current hResult
    have hNext' : (r.draft d).registered[(r.draft d).finished.length]? = some (r.block b) := by
      simp only [draft, List.length_map, List.getElem?_map, hNext, Option.map_some]
    have hLength : (r.draft d).finished.length = d.finished.length := List.length_map _
    have hBlock' := (lowerBlock_shadows hCarries ⟨d.finished.length⟩ hb).ok hBlock
    rw [← hLength] at hBlock'
    exact ⟨c', .block hNext' hBlock' hRest'⟩
  | blockRefused => cases hResult
  | @root root rs d d₁ l result hNone hLabel hRest ih =>
    obtain ⟨hHead, hTail⟩ := List.forall_mem_cons.mp hRoots
    have hs₁ := settled_of_root hHead hs (labelFor_ok hLabel).2
    obtain ⟨c', hRest'⟩ := ih hTail hs₁ c hResult
    have hShadow := (labelFor_shadows (hCarries.exists_block (.root hHead))).ok hLabel
    have hNone' : (r.draft d).registered[(r.draft d).finished.length]? = none := by
      simp only [draft, List.length_map, List.getElem?_map, hNone, Option.map_none]
    exact ⟨c', .root hNone' (labelFor_of_current c hShadow) hRest'⟩
  | rootRefused => cases hResult

end Worklist

end Renaming

namespace Graph

variable {g g' : Graph} {roots : List BlockId} {p : Program} {r : Renaming}

/-- A graph that shows the same from its roots, except for the numbers of blocks and operands,
lowers to the same program, except for those numbers. What cannot be reached, and how anything is
numbered, has no part in it. -/
theorem lower_rename (hCarries : r.Carries g g' roots) (hLower : g.lower roots = .ok p) :
    g'.lower (roots.map r.block) = .ok (r.program p) := by
  obtain ⟨result, hWorksOff, hOutcome⟩ := exists_worksOff g roots
  rw [hLower] at hOutcome
  cases result with
  | error e d => cases hOutcome
  | ok u d =>
    rw [Lowering.outcome] at hOutcome
    split at hOutcome
    · cases hOutcome
    · rename_i hRoots
      cases hOutcome
      obtain ⟨c, hWorksOff'⟩ := Renaming.worksOff_shadows hCarries (fun _ hb => hb)
        (Draft.settled_empty g roots) hWorksOff { label := default, origin := default }
      obtain ⟨result', hOther, hOutcome'⟩ := exists_worksOff g' (roots.map r.block)
      rw [hOutcome', hOther.unique hWorksOff', Lowering.outcome,
        if_neg (fun hNil => hRoots (List.map_eq_nil_iff.mp hNil))]
      simp only [Renaming.program, Renaming.draft, List.map_map]
      rfl

/-- The second block counts down from the third one's jump, and the first one, which nothing leads
to, does not lower. -/
def ferry : Graph where
  operands := [.literal (.string "n="), .temporary (some "n"), .temporary none,
    .literal (.integer 4), .literal .null]
  blocks := [
    [⟨.echo ⟨4⟩, none⟩, ⟨.jump ⟨9⟩, none⟩],
    [⟨.assign ⟨1⟩ ⟨3⟩ ⟨2⟩, some 1⟩, ⟨.concatList [⟨0⟩, ⟨1⟩] ⟨2⟩, some 2⟩, ⟨.jump ⟨2⟩, none⟩],
    [⟨.echo ⟨2⟩, some 3⟩, ⟨.branch ⟨1⟩ ⟨2⟩ ⟨1⟩, none⟩]]

/-- The same two blocks under other numbers, with the temporaries in the other order. -/
def ferryBack : Graph where
  operands := [.literal (.string "n="), .temporary none, .temporary (some "n"),
    .literal (.integer 4)]
  blocks := [
    [⟨.assign ⟨2⟩ ⟨3⟩ ⟨1⟩, some 1⟩, ⟨.concatList [⟨0⟩, ⟨2⟩] ⟨1⟩, some 2⟩, ⟨.jump ⟨2⟩, none⟩],
    [],
    [⟨.echo ⟨1⟩, some 3⟩, ⟨.branch ⟨2⟩ ⟨2⟩ ⟨0⟩, none⟩]]

def ferryNumbers : Renaming where
  block := Equiv.swap ⟨0⟩ ⟨1⟩
  operand := Equiv.swap ⟨1⟩ ⟨2⟩
  block_injective := Equiv.injective _
  operand_injective := Equiv.injective _

def ferryProgram : Program where
  blocks := [
    { label := ⟨0⟩, origin := ⟨1⟩
      instrs := [.assign 0 1 2, .binary .concat 4 3 1, .assign 0 0 4, .jump ⟨1⟩]
      lines := [some 1, some 2, some 2, none]
      slots := .ofList [(⟨1⟩, 1), (⟨2⟩, 0)]
      constants := [⟨⟨3⟩, 2, .integer 4⟩, ⟨⟨0⟩, 3, .string [110, 61]⟩]
      scopeSize := 5 },
    { label := ⟨1⟩, origin := ⟨2⟩, instrs := [.echo 0, .branch 1 ⟨1⟩ ⟨0⟩], lines := [some 3, none]
      slots := .ofList [(⟨1⟩, 1), (⟨2⟩, 0)], scopeSize := 5 }]
  entry := ⟨0⟩
  slotCount := 5

theorem ferry_reachable {b : BlockId} (h : ferry.Reachable [⟨1⟩] b) : b = ⟨1⟩ ∨ b = ⟨2⟩ := by
  induction h with
  | root hRoot => exact .inl (List.mem_singleton.mp hRoot)
  | step _ hNodes hNode hTarget ih =>
    rcases ih with rfl | rfl
    · cases hNodes
      simp only [List.mem_cons, List.not_mem_nil, or_false] at hNode
      rcases hNode with rfl | rfl | rfl <;> simp_all [Action.targets]
    · cases hNodes
      simp only [List.mem_cons, List.not_mem_nil, or_false] at hNode
      rcases hNode with rfl | rfl <;> simp_all [Action.targets]
      exact hTarget.symm

theorem lower_rename_ferry : ferryNumbers.Carries ferry ferryBack [⟨1⟩] ∧
    ferry.lower [⟨1⟩] = .ok ferryProgram ∧
    ferryBack.lower [⟨0⟩] = .ok (ferryNumbers.program ferryProgram) := by
  have hCarries : ferryNumbers.Carries ferry ferryBack [⟨1⟩] := by
    constructor
    · intro b nodes hb hNodes
      rcases ferry_reachable hb with rfl | rfl
      · cases hNodes
        decide +kernel
      · cases hNodes
        decide +kernel
    · intro b hb
      rcases ferry_reachable hb with rfl | rfl
      · decide +kernel
      · decide +kernel
  have hLower : ferry.lower [⟨1⟩] = .ok ferryProgram := by decide +kernel
  have hRoots : [⟨1⟩].map ferryNumbers.block = [⟨0⟩] := by decide +kernel
  exact ⟨hCarries, hLower, hRoots ▸ lower_rename hCarries hLower⟩

end Graph

end BlockMachine
