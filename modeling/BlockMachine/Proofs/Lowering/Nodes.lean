import BlockMachine.Lowering.Basic
import BlockMachine.Proofs.Lowering.Growth
import BlockMachine.Proofs.Outcome

/-!
# Lowering nodes
One statement for each function that fills a block: how the draft has grown when it succeeds.
-/

namespace BlockMachine.Lowering
set_option autoImplicit false

open Draft

variable {g : Graph} {d d' : Draft}

theorem slotFor_ok {o : OperandId} {s : Slot} (h : slotFor o d = .ok s d') :
    (o, s) ∈ d'.slotOf ∧ Allots d d' [o] [] ∧
      d' = { d with slotOf := d'.slotOf, nextSlot := d'.nextSlot } := by
  rw [slotFor] at h
  split at h
  · rename_i t hFound
    cases h
    obtain ⟨front, back, hEntries, -⟩ := List.lookup_eq_some_iff.mp hFound
    have hMem : (o, s) ∈ d.slotOf := by simp [hEntries]
    have hKey : o ∈ d.slotOf.map Prod.fst := List.mem_map.mpr ⟨(o, s), hMem, rfl⟩
    refine ⟨hMem, ⟨?_, List.prefix_rfl, fun rest hRest => by rwa [List.append_nil]⟩, rfl⟩
    rw [List.foldl_cons, List.foldl_nil, enlist, if_pos hKey]
  · rename_i hNone
    cases h
    have hNew : o ∉ d.slotOf.map Prod.fst := by
      intro hKey
      obtain ⟨e, he, rfl⟩ := List.mem_map.mp hKey
      simpa using List.lookup_eq_none_iff.mp hNone e he
    refine ⟨by simp, ⟨?_, List.prefix_append _ _, fun rest hRest => ?_⟩, rfl⟩
    · rw [List.foldl_cons, List.foldl_nil, enlist, if_neg hNew, List.map_append]
      rfl
    · rw [Allotted, List.append_nil, List.map_append, List.append_assoc, List.range_succ]
      exact (List.perm_append_comm.append_left _).trans (by
        rw [← List.append_assoc]
        exact hRest.append_right [d.nextSlot])

theorem freshSlot_ok {s : Slot} (h : freshSlot d = .ok s d') :
    Advance g d d' [] [] [s] [] [] := by
  cases h
  refine ⟨⟨rfl, List.prefix_rfl, fun rest hRest => ?_⟩, Registers.of_registered rfl,
    Fills.of_current rfl rfl rfl List.prefix_rfl⟩
  rw [Allotted, ← List.append_assoc, List.range_succ]
  exact hRest.append_right [d.nextSlot]

theorem emit_ok {i : Instr} {line : Option Nat} {u : Unit} (h : emit i line d = .ok u d') :
    Advance g d d' [] [] [] [i] [line] := by
  cases h
  refine ⟨Allots.of_slots rfl rfl, Registers.of_registered rfl, ?_⟩
  exact { (Advance.refl g d).toFills with
    instrs := rfl
    lines := rfl
    events := rfl
    constants := fun pl us _ h => by rw [List.append_nil]; exact h
    slots := fun pl us _ h => by rw [List.append_nil]; exact h }

theorem labelFor_ok {b : BlockId} {l : Label} (h : labelFor g b d = .ok l d') :
    d'.registered[l.index]? = some b ∧ Advance g d d' [] [b] [] [] [] := by
  rw [labelFor] at h
  split at h
  · rename_i i hFound
    cases h
    obtain ⟨hLt, hGet, -⟩ := List.idxOf?_eq_some_iff.mp hFound
    have hMem : b ∈ d.registered := hGet ▸ List.getElem_mem hLt
    refine ⟨List.getElem?_eq_some_iff.mpr ⟨hLt, hGet⟩, Allots.of_slots rfl rfl, ⟨?_, id⟩,
      Fills.of_current rfl rfl rfl List.prefix_rfl⟩
    rw [List.foldl_cons, List.foldl_nil, enlist, if_pos hMem]
  · rename_i hNone
    split at h
    · cases h
    · rename_i hExists
      cases h
      have hNew : b ∉ d.registered := List.idxOf?_eq_none_iff.mp hNone
      refine ⟨List.getElem?_concat_length, Allots.of_slots rfl rfl, ⟨?_, fun hAll c hc => ?_⟩,
        Fills.of_current rfl rfl rfl List.prefix_rfl⟩
      · rw [List.foldl_cons, List.foldl_nil, enlist, if_neg hNew]
      · rcases List.mem_append.mp hc with hc | hc
        · exact hAll c hc
        · rw [List.mem_singleton.mp hc]
          simpa [← Option.isSome_iff_ne_none] using hExists

theorem useConstant_ok {c : Constant} {s : Slot} (hd : d.Coherent)
    (hMem : (c.operand, c.slot) ∈ d.slotOf) (hv : g.literal? c.operand = some c.value)
    (h : useConstant c d = .ok s d') :
    (c.operand, s) ∈ d.slotOf ∧ d' = { d with current := d'.current } ∧
      Fills g d d' [c.operand] [] [] := by
  have hUsable : ∀ o ∈ [c.operand], g.usable o = true := by simp [Graph.usable, hv]
  have hSlots (pl : Placement) (us : List OperandId) :
      g.slotTable pl.slot (us ++ [c.operand]) = g.slotTable pl.slot us :=
    Graph.slotTable_append_other (Graph.isTemporary_eq_false hv)
  rw [useConstant, CodeBlock.registerConstant] at h
  cases hFind : d.current.constant? c.operand with
  | some e =>
    rw [hFind] at h
    cases h
    have hFound : e ∈ d.current.constants := List.mem_of_find?_eq_some hFind
    have hOperand : e.operand = c.operand := by simpa using List.find?_some hFind
    refine ⟨hOperand ▸ hd e hFound, rfl, ?_⟩
    exact { Fills.of_current (g := g) (d := d) rfl rfl rfl List.prefix_rfl with
      usable := hUsable
      constants := fun pl us _ h => by
        have hUsed := (Graph.mem_constants.mp (h ▸ hFound)).1
        rw [Graph.constants_append_of_mem (hOperand ▸ hUsed), h]
      slots := fun pl us _ h => by rw [hSlots, h] }
  | none =>
    rw [hFind] at h
    cases h
    refine ⟨hMem, rfl, ?_⟩
    exact { (Advance.refl g d).toFills with
      usable := hUsable
      coherent := fun _ e he => by
        rcases List.mem_append.mp he with he | he
        · exact hd e he
        · rw [List.mem_singleton.mp he]
          exact hMem
      constants := fun pl us hAgrees h => by
        have hNew : c.operand ∉ us := fun hUsed => by
          have hFound : ⟨c.operand, pl.slot c.operand, c.value⟩ ∈ d.current.constants := by
            rw [h, Graph.mem_constants]
            exact ⟨hUsed, rfl, hv⟩
          simpa using List.find?_eq_none.mp hFind _ hFound
        rw [Graph.constants_append_literal hNew hv, ← h, hAgrees.slot _ hMem]
      slots := fun pl us _ h => by rw [hSlots, ← h] }

theorem useTemporary_ok {o : OperandId} {s : Slot} {u : Unit} (hMem : (o, s) ∈ d.slotOf)
    (ho : g.isTemporary o = true) (h : useTemporary o s d = .ok u d') :
    d' = { d with current := d'.current } ∧ Fills g d d' [o] [] [] := by
  cases h
  refine ⟨rfl, ?_⟩
  exact { (Advance.refl g d).toFills with
    usable := by simp [Graph.usable, ho]
    constants := fun pl us _ h => by
      rw [Graph.constants_append_other (Graph.literal?_eq_none ho)]
      exact h
    slots := fun pl us hAgrees h => by
      rw [Graph.slotTable_append_temporary ho, ← h, hAgrees.slot _ hMem]
      rfl }

theorem advance_of_slotFor {d₁ : Draft} {o : OperandId} {s : Slot} (hSlot : slotFor o d = .ok s d₁)
    (hAfter : d' = { d₁ with current := d'.current }) (hFills : Fills g d₁ d' [o] [] []) :
    Advance g d d' [o] [] [] [] [] := by
  obtain ⟨-, hAllots, hSame⟩ := slotFor_ok hSlot
  have hIdle : Fills g d d₁ [] [] [] :=
    Fills.of_current (by rw [hSame]) (by rw [hSame]) (by rw [hSame]) hAllots.slotOf
  have hRegistered : d₁.registered = d.registered := by rw [hSame]
  rw [hAfter] at hFills ⊢
  exact ⟨⟨hAllots.keys, hAllots.slotOf, hAllots.allotted⟩, Registers.of_registered hRegistered,
    hIdle.trans hFills List.prefix_rfl List.prefix_rfl⟩

theorem lowerOperand_ok {o : OperandId} {s : Slot} (hd : d.Coherent)
    (h : lowerOperand g o d = .ok s d') :
    (o, s) ∈ d'.slotOf ∧ Advance g d d' [o] [] [] [] [] := by
  cases hOperand : g.operand? o with
  | none =>
    rw [lowerOperand, hOperand] at h
    cases h
  | some operand =>
    cases operand with
    | literal l =>
      cases hValue : l.value? with
      | none =>
        rw [lowerOperand, hOperand] at h
        dsimp only at h
        rw [hValue] at h
        cases h
      | some v =>
        rw [lowerOperand, hOperand] at h
        dsimp only at h
        rw [hValue] at h
        obtain ⟨t, d₁, hSlot, hUse⟩ := Outcome.bind_eq_ok_iff.mp h
        obtain ⟨hMem, hAllots, hSame⟩ := slotFor_ok hSlot
        have hCoherent : d₁.Coherent := fun c hc =>
          hAllots.slotOf.subset (hd c (by rw [hSame] at hc; exact hc))
        have hLiteral : g.literal? o = some v := by
          rw [Graph.literal?, hOperand]
          exact hValue
        obtain ⟨hPlaced, hAfter, hFills⟩ := useConstant_ok hCoherent hMem hLiteral hUse
        have hAdvance := advance_of_slotFor hSlot hAfter hFills
        rw [hAfter] at hAdvance ⊢
        exact ⟨hPlaced, hAdvance⟩
    | temporary name =>
      rw [lowerOperand, hOperand] at h
      obtain ⟨t, d₁, hSlot, hRest⟩ := Outcome.bind_eq_ok_iff.mp h
      obtain ⟨u, d₂, hUse, hReturn⟩ := Outcome.bind_eq_ok_iff.mp hRest
      obtain ⟨hMem, -⟩ := slotFor_ok hSlot
      have hTemporary : g.isTemporary o = true := by rw [Graph.isTemporary, hOperand]
      obtain ⟨hAfter, hFills⟩ := useTemporary_ok hMem hTemporary hUse
      cases hReturn
      have hAdvance := advance_of_slotFor hSlot hAfter hFills
      rw [hAfter] at hAdvance ⊢
      exact ⟨hMem, hAdvance⟩
    | «variable» name =>
      rw [lowerOperand, hOperand] at h
      cases h

theorem lowerParts_ok {line : Option Nat} {parts : List OperandId} {joined last : Slot}
    (hd : d.Coherent) (h : lowerParts g line joined parts d = .ok last d') :
    ∃ spare is, spare.length = parts.length ∧
      Advance g d d' parts [] spare is (List.replicate parts.length line) ∧
      ∀ pl, d'.Agrees pl → ∀ result,
        Action.joinCode result joined (parts.map pl.slot) spare =
          is ++ [.assign result result last] := by
  induction parts generalizing d joined with
  | nil =>
    cases h
    exact ⟨[], [], rfl, Advance.refl g _, fun pl _ result => rfl⟩
  | cons part parts ih =>
    obtain ⟨right, d₁, hPart, hRest⟩ := Outcome.bind_eq_ok_iff.mp h
    obtain ⟨next, d₂, hFresh, hRest⟩ := Outcome.bind_eq_ok_iff.mp hRest
    obtain ⟨u, d₃, hEmit, hRest⟩ := Outcome.bind_eq_ok_iff.mp hRest
    obtain ⟨hMem, hFirst⟩ := lowerOperand_ok hd hPart
    have hSecond : Advance g d₁ d₂ [] [] [next] [] [] := freshSlot_ok hFresh
    have hThird : Advance g d₂ d₃ [] [] [] [_] [line] := emit_ok hEmit
    have hPast := (hFirst.trans hSecond).trans hThird
    obtain ⟨spare, is, hLength, hLast, hCode⟩ := ih (hPast.coherent hd) hRest
    refine ⟨next :: spare, .binary .concat next joined right :: is, ?_, hPast.trans hLast, ?_⟩
    · rw [List.length_cons, List.length_cons, hLength]
    · intro pl hAgrees result
      have hPart : pl.slot part = right :=
        (hSecond.agrees (hThird.agrees (hLast.agrees hAgrees))).slot _ hMem
      rw [List.map_cons, Action.joinCode, hCode pl hAgrees result, hPart]
      rfl

theorem lowerQualified_ok {qualified : Option OperandId} {slot : Option Slot} (hd : d.Coherent)
    (h : qualified.mapM (lowerOperand g) d = .ok slot d') :
    Advance g d d' qualified.toList [] [] [] [] ∧
      ∀ pl, d'.Agrees pl → qualified.map pl.slot = slot := by
  cases qualified with
  | none =>
    cases h
    exact ⟨Advance.refl g _, fun _ _ => rfl⟩
  | some o =>
    rw [Option.mapM_some, map_eq_pure_bind] at h
    obtain ⟨s, d₁, hOperand, hReturn⟩ := Outcome.bind_eq_ok_iff.mp h
    cases hReturn
    obtain ⟨hMem, hAdvance⟩ := lowerOperand_ok hd hOperand
    exact ⟨hAdvance, fun pl hAgrees => congrArg some (hAgrees.slot _ hMem)⟩

theorem lowerConcatList_ok {line : Option Nat} {parts : List OperandId} {result : OperandId}
    {u : Unit} (hd : d.Coherent) (h : lowerConcatList g line parts result d = .ok u d') :
    parts ≠ [] ∧ ∃ spare is, spare.length = parts.length - 1 ∧
      Advance g d d' (parts ++ [result]) [] spare is (List.replicate (parts.length - 1 + 1) line) ∧
      ∀ pl, d'.Agrees pl → is = (Action.concatList parts result).code pl spare := by
  cases parts with
  | nil => cases h
  | cons first rest =>
    obtain ⟨s₁, d₁, hFirst, h⟩ := Outcome.bind_eq_ok_iff.mp h
    obtain ⟨s₂, d₂, hRest, h⟩ := Outcome.bind_eq_ok_iff.mp h
    obtain ⟨s₃, d₃, hResult, hEmit⟩ := Outcome.bind_eq_ok_iff.mp h
    obtain ⟨hMem₁, h₁⟩ := lowerOperand_ok hd hFirst
    obtain ⟨spare, is, hLength, h₂, hCode⟩ := lowerParts_ok (h₁.coherent hd) hRest
    obtain ⟨hMem₃, h₃⟩ := lowerOperand_ok (h₂.coherent (h₁.coherent hd)) hResult
    have h₄ : Advance g d₃ d' [] [] [] [_] [line] := emit_ok hEmit
    have hAll := ((h₁.trans h₂).trans h₃).trans h₄
    refine ⟨List.cons_ne_nil _ _, spare, is ++ [.assign s₃ s₃ s₂], hLength, ?_, fun pl hAgrees => ?_⟩
    · simpa [List.replicate_succ'] using hAll
    · have hAgrees₂ := h₃.agrees (h₄.agrees hAgrees)
      rw [Action.code, (h₂.agrees hAgrees₂).slot _ hMem₁, (h₄.agrees hAgrees).slot _ hMem₃,
        hCode pl hAgrees₂]

/-- Every node with two or more operands lowers its first two the same way. -/
theorem lowerTwo_ok {o₁ o₂ : OperandId} {next : Slot → Slot → Lowering Unit} {u : Unit}
    (hd : d.Coherent)
    (h : (do next (← lowerOperand g o₁) (← lowerOperand g o₂) : Lowering Unit) d = .ok u d') :
    ∃ s₁ s₂ d₂, next s₁ s₂ d₂ = .ok u d' ∧ d₂.Coherent ∧ Advance g d d₂ [o₁, o₂] [] [] [] [] ∧
      ∀ pl, d₂.Agrees pl → pl.slot o₁ = s₁ ∧ pl.slot o₂ = s₂ := by
  obtain ⟨s₁, d₁, hFirst, h⟩ := Outcome.bind_eq_ok_iff.mp h
  obtain ⟨s₂, d₂, hSecond, hNext⟩ := Outcome.bind_eq_ok_iff.mp h
  obtain ⟨hMem₁, h₁⟩ := lowerOperand_ok hd hFirst
  obtain ⟨hMem₂, h₂⟩ := lowerOperand_ok (h₁.coherent hd) hSecond
  refine ⟨s₁, s₂, d₂, hNext, h₂.coherent (h₁.coherent hd), h₁.trans h₂, fun pl hAgrees => ?_⟩
  exact ⟨(h₂.agrees hAgrees).slot _ hMem₁, hAgrees.slot _ hMem₂⟩

theorem lowerNode_ok {node : Node} {u : Unit} (hd : d.Coherent)
    (h : lowerNode g node d = .ok u d') :
    node.action.Lowerable g ∧ ∃ spare is, spare.length = node.action.joints ∧
      Advance g d d' node.action.operands node.action.targets spare is
        (List.replicate (node.action.joints + 1) node.line) ∧
      ∀ pl, d'.Agrees pl → is = node.action.code pl spare := by
  obtain ⟨action, line⟩ := node
  cases action with
  | binary op left right result =>
    cases hOp : op.operator? with
    | none =>
      rw [lowerNode] at h
      dsimp only at h
      rw [hOp] at h
      cases h
    | some operator =>
      rw [lowerNode] at h
      dsimp only at h
      rw [hOp] at h
      obtain ⟨s₁, s₂, d₂, h, hd₂, h₂, hSlots⟩ := lowerTwo_ok hd h
      obtain ⟨s₃, d₃, hRight, hEmit⟩ := Outcome.bind_eq_ok_iff.mp h
      obtain ⟨hMem₃, h₃⟩ := lowerOperand_ok hd₂ hRight
      have h₄ : Advance g d₃ d' [] [] [] [_] [line] := emit_ok hEmit
      have hAll := (h₂.trans h₃).trans h₄
      refine ⟨⟨by simp [Action.supported, hOp], hAll.usable⟩, [], _, rfl, hAll, ?_⟩
      intro pl hAgrees
      have hAgrees₃ := h₄.agrees hAgrees
      obtain ⟨hResult, hLeft⟩ := hSlots pl (h₃.agrees hAgrees₃)
      simp [Action.code, hOp, hResult, hLeft, hAgrees₃.slot _ hMem₃]
  | assign var expr result =>
    obtain ⟨s₁, s₂, d₂, h, hd₂, h₂, hSlots⟩ := lowerTwo_ok hd h
    obtain ⟨s₃, d₃, hExpr, hEmit⟩ := Outcome.bind_eq_ok_iff.mp h
    obtain ⟨hMem₃, h₃⟩ := lowerOperand_ok hd₂ hExpr
    have h₄ : Advance g d₃ d' [] [] [] [_] [line] := emit_ok hEmit
    have hAll := (h₂.trans h₃).trans h₄
    refine ⟨⟨rfl, hAll.usable⟩, [], _, rfl, hAll, fun pl hAgrees => ?_⟩
    have hAgrees₃ := h₄.agrees hAgrees
    obtain ⟨hResult, hVar⟩ := hSlots pl (h₃.agrees hAgrees₃)
    simp [Action.code, hResult, hVar, hAgrees₃.slot _ hMem₃]
  | concatList parts result =>
    obtain ⟨hParts, spare, is, hLength, hAll, hCode⟩ := lowerConcatList_ok hd h
    exact ⟨⟨by simpa [Action.supported] using hParts, hAll.usable⟩, spare, is, hLength, hAll, hCode⟩
  | constFetch name qualified result =>
    obtain ⟨s₁, s₂, d₂, h, hd₂, h₂, hSlots⟩ := lowerTwo_ok hd h
    obtain ⟨s₃, d₃, hQualified, hEmit⟩ := Outcome.bind_eq_ok_iff.mp h
    obtain ⟨h₃, hSlot⟩ := lowerQualified_ok hd₂ hQualified
    have h₄ : Advance g d₃ d' [] [] [] [_] [line] := emit_ok hEmit
    have hAll := (h₂.trans h₃).trans h₄
    rw [List.append_nil] at hAll
    refine ⟨⟨rfl, hAll.usable⟩, [], _, rfl, hAll, fun pl hAgrees => ?_⟩
    have hAgrees₃ := h₄.agrees hAgrees
    obtain ⟨hResult, hName⟩ := hSlots pl (h₃.agrees hAgrees₃)
    simp [Action.code, hResult, hName, hSlot pl hAgrees₃]
  | call name args result => cases h
  | jump target =>
    obtain ⟨l, d₁, hTarget, hEmit⟩ := Outcome.bind_eq_ok_iff.mp h
    obtain ⟨hMem, h₁⟩ := labelFor_ok hTarget
    have h₂ : Advance g d₁ d' [] [] [] [_] [line] := emit_ok hEmit
    have hAll := h₁.trans h₂
    refine ⟨⟨rfl, hAll.usable⟩, [], _, rfl, hAll, fun pl hAgrees => ?_⟩
    rw [Action.code, (h₂.agrees hAgrees).label _ _ hMem]
    rfl
  | branch cond ifTrue ifFalse =>
    obtain ⟨s, d₁, hCond, h⟩ := Outcome.bind_eq_ok_iff.mp h
    obtain ⟨l₁, d₂, hTrue, h⟩ := Outcome.bind_eq_ok_iff.mp h
    obtain ⟨l₂, d₃, hFalse, hEmit⟩ := Outcome.bind_eq_ok_iff.mp h
    obtain ⟨hMem₁, h₁⟩ := lowerOperand_ok hd hCond
    obtain ⟨hMem₂, h₂⟩ := labelFor_ok hTrue
    obtain ⟨hMem₃, h₃⟩ := labelFor_ok hFalse
    have h₄ : Advance g d₃ d' [] [] [] [_] [line] := emit_ok hEmit
    have hAll := ((h₁.trans h₂).trans h₃).trans h₄
    refine ⟨⟨rfl, hAll.usable⟩, [], _, rfl, hAll, fun pl hAgrees => ?_⟩
    have hAgrees₃ := h₄.agrees hAgrees
    have hAgrees₂ := h₃.agrees hAgrees₃
    have hAgrees₁ := h₂.agrees hAgrees₂
    rw [Action.code, hAgrees₁.slot _ hMem₁, hAgrees₂.label _ _ hMem₂, hAgrees₃.label _ _ hMem₃]
    rfl
  | declare kind name => cases h
  | echo expr =>
    obtain ⟨s, d₁, hExpr, hEmit⟩ := Outcome.bind_eq_ok_iff.mp h
    obtain ⟨hMem, h₁⟩ := lowerOperand_ok hd hExpr
    have h₂ : Advance g d₁ d' [] [] [] [_] [line] := emit_ok hEmit
    have hAll := h₁.trans h₂
    refine ⟨⟨rfl, hAll.usable⟩, [], _, rfl, hAll, fun pl hAgrees => ?_⟩
    rw [Action.code, (h₂.agrees hAgrees).slot _ hMem]
    rfl
  | ret expr => cases h

theorem lowerNodes_ok {nodes : List Node} {u : Unit} (hd : d.Coherent)
    (h : lowerNodes g nodes d = .ok u d') :
    (∀ n ∈ nodes, n.action.Lowerable g) ∧ ∃ spares is,
      spares.map List.length = nodes.map (·.action.joints) ∧
      Advance g d d' (Node.uses nodes) (Node.targets nodes) spares.flatten is (Node.lines nodes) ∧
      ∀ pl, d'.Agrees pl → is = Node.codes pl nodes spares := by
  induction nodes generalizing d with
  | nil =>
    cases h
    exact ⟨fun _ hn => (List.not_mem_nil hn).elim, [], [], rfl, Advance.refl g _, fun _ _ => rfl⟩
  | cons node nodes ih =>
    obtain ⟨u, d₁, hNode, hNodes⟩ := Outcome.bind_eq_ok_iff.mp h
    obtain ⟨hHead, spare, is, hLength, h₁, hCode⟩ :=
      lowerNode_ok hd (Outcome.adaptExcept_eq_ok_iff.mp hNode)
    obtain ⟨hTail, spares, js, hLengths, h₂, hCodes⟩ := ih (h₁.coherent hd) hNodes
    refine ⟨List.forall_mem_cons.mpr ⟨hHead, hTail⟩, spare :: spares, is ++ js, ?_, h₁.trans h₂, ?_⟩
    · rw [List.map_cons, List.map_cons, hLength, hLengths]
    · intro pl hAgrees
      rw [Node.codes, ← hCode pl (h₂.agrees hAgrees), ← hCodes pl hAgrees]

end BlockMachine.Lowering
