import BlockMachine.Proofs.Lowering.Rendering
import Mathlib.Data.List.Nodup

/-!
# Sound layouts
The blocks of a layout's program, and the slots of its operands and joints: no two share a slot,
and none is outside the scope.
-/

namespace BlockMachine
set_option autoImplicit false

theorem Graph.mem_operandsOf {g : Graph} {origins : List BlockId} {o : OperandId} :
    o ∈ g.operandsOf origins ↔ ∃ b ∈ origins, o ∈ Node.uses (g.nodes b) := by
  rw [operandsOf, mem_foldl_enlist, List.mem_flatMap]
  simp

namespace Layout.Sound

variable {l : Layout} {g : Graph} {roots : List BlockId}

theorem length_blocks (h : l.Sound g roots) :
    (l.program g).blocks.length = l.origins.length := by
  rw [program, List.length_zipWith, ← Graph.length_eq_of_joints h.joints, Nat.min_self]

/-- The blocks of the program are renderings, each with as many spare slots as it needs. -/
theorem block_eq (h : l.Sound g roots) {i : Nat} {b : CodeBlock}
    (hb : (l.program g).blocks[i]? = some b) :
    ∃ origin spares, l.origins[i]? = some origin ∧ spares ∈ l.spares ∧
      spares.map List.length = (g.nodes origin).map (·.action.joints) ∧
      b = g.render l.toPlacement l.slotCount origin spares := by
  rw [program, List.getElem?_zipWith] at hb
  cases hOrigin : l.origins[i]? with
  | none =>
    rw [hOrigin] at hb
    cases hb
  | some origin =>
    cases hSpares : l.spares[i]? with
    | none =>
      rw [hOrigin, hSpares] at hb
      cases hb
    | some spares =>
      rw [hOrigin, hSpares] at hb
      have hJoints := congrArg (·[i]?) h.joints
      simp only [List.getElem?_map, hOrigin, hSpares, Option.map_some, Option.some.injEq] at hJoints
      exact ⟨origin, spares, rfl, List.mem_of_getElem? hSpares, hJoints, (Option.some.inj hb).symm⟩

theorem exists_render (h : l.Sound g roots) {b : CodeBlock} (hb : b ∈ (l.program g).blocks) :
    ∃ origin ∈ l.origins, ∃ spares, b = g.render l.toPlacement l.slotCount origin spares := by
  obtain ⟨i, hi⟩ := List.mem_iff_getElem?.mp hb
  obtain ⟨origin, spares, hOrigin, -, -, rfl⟩ := h.block_eq hi
  exact ⟨origin, List.mem_of_getElem? hOrigin, spares, rfl⟩

theorem block?_label (h : l.Sound g roots) {origin : BlockId} (hOrigin : origin ∈ l.origins) :
    ∃ spares ∈ l.spares, spares.map List.length = (g.nodes origin).map (·.action.joints) ∧
      (l.program g).block? (l.label origin) =
        some (g.render l.toPlacement l.slotCount origin spares) := by
  obtain ⟨i, hi⟩ := List.mem_iff_getElem?.mp hOrigin
  have hLt : i < (l.program g).blocks.length := by
    rw [h.length_blocks]
    exact (List.getElem?_eq_some_iff.mp hi).1
  obtain ⟨b, hb⟩ : ∃ b, (l.program g).blocks[i]? = some b := ⟨_, List.getElem?_eq_getElem hLt⟩
  obtain ⟨origin', spares, hOrigin', hSpares, hJoints, rfl⟩ := h.block_eq hb
  cases hi.symm.trans hOrigin'
  refine ⟨spares, hSpares, hJoints, ?_⟩
  rw [Program.block?, h.label_eq i origin hi]
  exact hb

section Slots

theorem nodup_slots (h : l.Sound g roots) :
    ((g.operandsOf l.origins).map l.slot ++ l.spares.flatten.flatten).Nodup :=
  h.slots.nodup_iff.mpr List.nodup_range

theorem slot_lt (h : l.Sound g roots) {o : OperandId} (ho : o ∈ g.operandsOf l.origins) :
    l.slot o < l.slotCount := by
  have hMem : l.slot o ∈ List.range l.slotCount :=
    h.slots.subset (List.mem_append_left _ (List.mem_map_of_mem ho))
  exact List.mem_range.mp hMem

theorem spare_lt (h : l.Sound g roots) {s : Slot} (hs : s ∈ l.spares.flatten.flatten) :
    s < l.slotCount :=
  List.mem_range.mp (h.slots.subset (List.mem_append_right _ hs))

theorem slot_inj (h : l.Sound g roots) {o o' : OperandId} (ho : o ∈ g.operandsOf l.origins)
    (ho' : o' ∈ g.operandsOf l.origins) (hEq : l.slot o = l.slot o') : o = o' := by
  have hNodup := (List.nodup_append.mp h.nodup_slots).1
  exact List.inj_on_of_nodup_map hNodup ho ho' hEq

theorem slot_ne_spare (h : l.Sound g roots) {o : OperandId} (ho : o ∈ g.operandsOf l.origins)
    {s : Slot} (hs : s ∈ l.spares.flatten.flatten) : l.slot o ≠ s :=
  (List.nodup_append.mp h.nodup_slots).2.2 _ (List.mem_map_of_mem ho) s hs

end Slots

end Layout.Sound

end BlockMachine
