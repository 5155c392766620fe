import BlockMachine.Proofs.Lowering.Effects
import BlockMachine.Proofs.Lowering.Joining
import BlockMachine.Proofs.Lowering.Layout

/-!
# A machine that follows a walk
The relation between a walk over a graph and a machine that runs the graph's program. Within a
block, the slots hold the values of all temporaries and of the literals that the block uses; other
literals are stale until they are loaded again.
-/

namespace BlockMachine
set_option autoImplicit false

open Machine

namespace Valuation

variable {g : Graph} {o : OperandId} (v : Valuation)

theorem load_temporary (h : g.isTemporary o = true) : v.load g o = v o := by
  cases ho : g.operand? o with
  | none => rw [load, ho]
  | some operand =>
    cases operand with
    | literal value =>
      rw [Graph.isTemporary, ho] at h
      cases h
    | temporary name => rw [load, ho]
    | «variable» name => rw [load, ho]

theorem load_literal {x : Value} (h : g.literal? o = some x) : v.load g o = x := by
  cases ho : g.operand? o with
  | none =>
    rw [Graph.literal?, ho] at h
    cases h
  | some operand =>
    rw [Graph.literal?, ho] at h
    cases operand with
    | literal value =>
      have hValue : value.value? = some x := h
      rw [load, ho]
      dsimp only
      rw [hValue, Option.getD_some]
    | temporary name => cases h
    | «variable» name => cases h

end Valuation

namespace Layout

structure Holds (l : Layout) (g : Graph) (origin : BlockId) (v : Valuation) (scope : Scope) :
    Prop where
  size : l.slotCount ≤ scope.size
  values : ∀ o ∈ g.operandsOf l.origins,
    g.isTemporary o = true ∨ o ∈ Node.uses (g.nodes origin) → scope[l.slot o]? = some (v o)

/-- A machine that is in the block of a graph block, with the code of the nodes still to be done
ahead of it, has done what the walk has done. -/
structure Follows (l : Layout) (g : Graph) (limits : Limits) (h : Host) (origin : BlockId)
    (a : Activation) (spares : List (List Slot)) (w : Walk.State) (s : Machine.State) : Prop where
  mem_origins : origin ∈ l.origins
  running : s.running = some a
  code : ∃ all, (l.program g).block? a.code =
      some (g.render l.toPlacement l.slotCount origin all) ∧
    (Node.codes l.toPlacement (g.nodes origin) all).drop a.pc =
      Node.codes l.toPlacement w.rest spares
  joints : spares.map List.length = w.rest.map (·.action.joints)
  spares : ∀ spare ∈ spares, spare ∈ l.spares.flatten
  rest : ∀ n ∈ w.rest, n ∈ g.nodes origin
  holds : l.Holds g origin w.valuation a.scope
  shows : s.Shows h w.output w.warnings w.steps
  within : overLimit limits w.steps = none

namespace Sound

variable {l : Layout} {g : Graph} {roots : List BlockId} {origin : BlockId} {v : Valuation}
  {scope : Scope}

theorem usable (h : l.Sound g roots) (hOrigin : origin ∈ l.origins) {o : OperandId}
    (ho : o ∈ Node.uses (g.nodes origin)) : g.usable o = true := by
  obtain ⟨n, hn, ho⟩ := List.mem_flatMap.mp ho
  exact ((h.covers origin hOrigin).lowerable n hn).usable o ho

theorem holds_writeAll (h : l.Sound g roots) (hHolds : l.Holds g origin v scope)
    {writes : List (OperandId × Value)} (hWrites : ∀ w ∈ writes, w.1 ∈ g.operandsOf l.origins) :
    ∃ after, scope.writeAll (writes.map fun w => (l.slot w.1, w.2)) = .ok after ∧
      l.Holds g origin (v.setAll writes) after := by
  induction writes generalizing v scope with
  | nil => exact ⟨scope, rfl, hHolds⟩
  | cons w writes ih =>
    obtain ⟨o, x⟩ := w
    obtain ⟨ho, hWrites⟩ := List.forall_mem_cons.mp hWrites
    have hLt : l.slot o < scope.size := Nat.lt_of_lt_of_le (h.slot_lt ho) hHolds.size
    have hNext : l.Holds g origin (v.set o x) (scope.setIfInBounds (l.slot o) x) := by
      refine ⟨by rw [Array.size_setIfInBounds]; exact hHolds.size, fun o' ho' hUse => ?_⟩
      by_cases hEq : o' = o
      · subst hEq
        rw [Array.getElem?_setIfInBounds_self_of_lt hLt, Valuation.set, if_pos rfl]
      · have hSlot : l.slot o ≠ l.slot o' := fun hSlot => hEq (h.slot_inj ho' ho hSlot.symm)
        rw [Array.getElem?_setIfInBounds_ne hSlot, Valuation.set, if_neg hEq]
        exact hHolds.values o' ho' hUse
    obtain ⟨after, hAfter, hLast⟩ := ih hNext hWrites
    refine ⟨after, ?_, hLast⟩
    rw [List.map_cons, Scope.writeAll_cons_of_lt hLt, hAfter]

theorem holds_enter (h : l.Sound g roots) (hOrigin : origin ∈ l.origins)
    (spares : List (List Slot)) (cameFrom : Option Label)
    (hTemporaries : ∀ o ∈ g.operandsOf l.origins, g.isTemporary o = true →
      ((g.render l.toPlacement l.slotCount origin spares).grow scope)[l.slot o]? = some (v o)) :
    l.Holds g origin (v.load g)
      ((g.render l.toPlacement l.slotCount origin spares).enter scope cameFrom).scope := by
  have hSize := (g.render l.toPlacement l.slotCount origin spares).scopeSize_le_enter scope cameFrom
  refine ⟨hSize, fun o ho hUse => ?_⟩
  have hLt : l.slot o < ((g.render l.toPlacement l.slotCount origin spares).grow scope).size := by
    rw [CodeBlock.enter, CodeBlock.size_loadConstants] at hSize
    exact Nat.lt_of_lt_of_le (h.slot_lt ho) hSize
  have hOwn (c : Constant) (hc : c ∈ g.constants l.slot (Node.uses (g.nodes origin)))
      (hSlot : c.slot = l.slot o) : g.literal? o = some c.value := by
    obtain ⟨hc, hEq, hLiteral⟩ := Graph.mem_constants.mp hc
    have hMem := Graph.mem_operandsOf.mpr ⟨origin, hOrigin, hc⟩
    rw [← h.slot_inj hMem ho (hEq ▸ hSlot)]
    exact hLiteral
  by_cases hTemporary : g.isTemporary o = true
  · rw [v.load_temporary hTemporary]
    refine CodeBlock.loadConstants_eq_some (fun c hc hSlot => ?_)
      (.inl (hTemporaries o ho hTemporary))
    have hLiteral := hOwn c hc hSlot
    rw [Graph.literal?_eq_none hTemporary] at hLiteral
    cases hLiteral
  · have ho := hUse.resolve_left hTemporary
    have hUsable := h.usable hOrigin ho
    rw [Graph.usable, Bool.or_eq_true] at hUsable
    obtain ⟨x, hx⟩ := Option.isSome_iff_exists.mp (hUsable.resolve_right hTemporary)
    rw [v.load_literal hx]
    refine CodeBlock.loadConstants_eq_some (fun c hc hSlot => ?_) (.inr ⟨hLt, ⟨o, l.slot o, x⟩, ?_, rfl⟩)
    · exact Option.some.inj ((hOwn c hc hSlot).symm.trans hx)
    · exact Graph.mem_constants.mpr ⟨ho, rfl, hx⟩

theorem follows_enter (h : l.Sound g roots) {limits : Limits} {host : Host} {s : Machine.State}
    {output : List UInt8} {warnings : List String} {n : Nat} {spares : List (List Slot)}
    {cameFrom : Option Label} (hOrigin : origin ∈ l.origins) (hSpares : spares ∈ l.spares)
    (hJoints : spares.map List.length = (g.nodes origin).map (·.action.joints))
    (hBlock : (l.program g).block? (l.label origin) =
      some (g.render l.toPlacement l.slotCount origin spares))
    (hRunning : s.running =
      some ((g.render l.toPlacement l.slotCount origin spares).enter scope cameFrom))
    (hTemporaries : ∀ o ∈ g.operandsOf l.origins, g.isTemporary o = true →
      ((g.render l.toPlacement l.slotCount origin spares).grow scope)[l.slot o]? = some (v o))
    (hShows : s.Shows host output warnings n) (hWithin : overLimit limits n = none) :
    l.Follows g limits host origin
      ((g.render l.toPlacement l.slotCount origin spares).enter scope cameFrom) spares
      ⟨v.load g, g.nodes origin, output, warnings, n⟩ s where
  mem_origins := hOrigin
  running := hRunning
  code := ⟨_, hBlock, rfl⟩
  joints := hJoints
  spares _ hSpare := List.mem_flatten_of_mem hSpares hSpare
  rest _ hn := hn
  holds := h.holds_enter hOrigin spares cameFrom hTemporaries
  shows := hShows
  within := hWithin

end Sound

end Layout

end BlockMachine
