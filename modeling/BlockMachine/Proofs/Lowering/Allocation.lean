import BlockMachine.Proofs.Lowering.Transcript
import BlockMachine.Proofs.Machine.Scope
import Mathlib.Data.List.Induction

/-!
# Who owns a slot
The operands and the joints of all blocks share one scope without sharing a slot, and between them
they use every slot of it. So what a block loads on entry is in nobody's way.
-/

namespace BlockMachine
set_option autoImplicit false

theorem foldl_enlist_eq_eraseDups {α : Type} [DecidableEq α] (xs : List α) :
    xs.foldl enlist [] = xs.eraseDups := by
  induction xs using List.reverseRecOn with
  | nil => rfl
  | append_singleton xs x ih =>
    rw [List.foldl_append, List.foldl_cons, List.foldl_nil, ih, List.eraseDups_append, enlist]
    by_cases hx : x ∈ xs
    · rw [if_pos (List.mem_eraseDups.mpr hx)]
      simp [List.removeAll, hx]
    · rw [if_neg (fun h => hx (List.mem_eraseDups.mp h))]
      simp [List.removeAll, hx, List.eraseDups_cons]

namespace SlotTable

variable {o : OperandId}

/-- Pairs that agree on the slot of an operand all enter it there. -/
theorem mem_ofList_map {slot : OperandId → Slot} {us : List OperandId} (ho : o ∈ us) :
    (o, slot o) ∈ (ofList (us.map fun x => (x, slot x))).entries := by
  have hFold (us : List OperandId) (t : SlotTable) (h : (o, slot o) ∈ t.entries ∨ o ∈ us) :
      (o, slot o) ∈
        ((us.map fun x => (x, slot x)).foldl (fun t p => t.insert p.1 p.2) t).entries := by
    induction us generalizing t with
    | nil => exact h.resolve_right List.not_mem_nil
    | cons u us ih =>
      rw [List.map_cons, List.foldl_cons]
      apply ih
      by_cases hu : o = u
      · left
        rw [← hu]
        exact mem_insertEntry_self
      · rcases h with h | h
        · exact .inl (mem_insertEntry_of_ne h hu)
        · exact .inr ((List.mem_cons.mp h).resolve_left hu)
  exact hFold us empty (.inr ho)

end SlotTable

namespace Graph

variable {g : Graph} {slot : OperandId → Slot} {us : List OperandId}

theorem mem_slotTable_iff {o : OperandId} {s : Slot} : (o, s) ∈ (g.slotTable slot us).entries ↔
    o ∈ us ∧ g.isTemporary o = true ∧ s = slot o := by
  constructor
  · exact mem_slotTable
  · rintro ⟨ho, hTemporary, rfl⟩
    exact SlotTable.mem_ofList_map (List.mem_filter.mpr ⟨ho, hTemporary⟩)

theorem operands_constants : (g.constants slot us).map Constant.operand =
    us.eraseDups.filter fun o => (g.literal? o).isSome := by
  rw [constants, foldl_enlist_eq_eraseDups, List.map_filterMap, ← List.filterMap_eq_filter]
  apply List.filterMap_congr
  intro o _
  cases hv : g.literal? o <;> simp [Option.guard, hv]

end Graph

namespace Action

theorem mem_slots_joinCode {result joined : Slot} {parts spare : List Slot}
    (hLength : spare.length = parts.length) {s : Slot}
    (hs : s = result ∨ s = joined ∨ s ∈ parts ∨ s ∈ spare) :
    ∃ i ∈ joinCode result joined parts spare, s ∈ i.slots := by
  induction parts generalizing joined spare with
  | nil =>
    rw [List.eq_nil_of_length_eq_zero hLength] at hs ⊢
    refine ⟨_, List.mem_cons_self, ?_⟩
    simpa [Instr.slots] using hs
  | cons part parts ih =>
    cases spare with
    | nil => cases hLength
    | cons next spare =>
      rw [joinCode]
      by_cases hHead : s = next ∨ s = joined ∨ s = part
      · refine ⟨_, List.mem_cons_self, ?_⟩
        simpa [Instr.slots] using hHead
      · have hTail : s = result ∨ s = next ∨ s ∈ parts ∨ s ∈ spare := by
          simp only [List.mem_cons] at hs
          tauto
        obtain ⟨i, hi, hSlot⟩ := ih (Nat.succ.inj hLength) hTail
        exact ⟨i, List.mem_cons_of_mem _ hi, hSlot⟩

theorem mem_slots_code {g : Graph} {a : Action} (ha : a.Lowerable g) (pl : Placement)
    {spare : List Slot} (hLength : spare.length = a.joints) {s : Slot}
    (hs : s ∈ a.operands.map pl.slot ++ spare) : ∃ i ∈ a.code pl spare, s ∈ i.slots := by
  have hSupported := ha.supported
  cases a with
  | binary op left right result =>
    obtain ⟨f, hf⟩ := Option.isSome_iff_exists.mp hSupported
    rw [List.eq_nil_of_length_eq_zero hLength] at hs
    simpa [code, hf, Instr.slots, operands] using hs
  | concatList parts result =>
    cases parts with
    | nil => cases hSupported
    | cons first rest =>
      apply mem_slots_joinCode
      · simpa [joints] using hLength
      · simp only [operands, List.cons_append, List.map_cons, List.map_append, List.mem_cons,
          List.mem_append, List.map_nil, List.not_mem_nil, or_false] at hs
        tauto
  | assign var expr result =>
    rw [List.eq_nil_of_length_eq_zero hLength] at hs
    simpa [code, Instr.slots, operands] using hs
  | constFetch name qualified result =>
    rw [List.eq_nil_of_length_eq_zero hLength] at hs
    cases qualified <;> simpa [code, Instr.slots, operands] using hs
  | jump target =>
    rw [List.eq_nil_of_length_eq_zero hLength] at hs
    simp [operands] at hs
  | branch cond ifTrue ifFalse =>
    rw [List.eq_nil_of_length_eq_zero hLength] at hs
    simpa [code, Instr.slots, operands] using hs
  | echo expr =>
    rw [List.eq_nil_of_length_eq_zero hLength] at hs
    simpa [code, Instr.slots, operands] using hs
  | call | declare | ret => cases hSupported

end Action

theorem Node.mem_slots_codes {g : Graph} {nodes : List Node}
    (hNodes : ∀ n ∈ nodes, n.action.Lowerable g) (pl : Placement) {spares : List (List Slot)}
    (hJoints : spares.map List.length = nodes.map (·.action.joints)) {s : Slot}
    (hs : s ∈ (uses nodes).map pl.slot ++ spares.flatten) :
    ∃ i ∈ codes pl nodes spares, s ∈ i.slots := by
  induction nodes generalizing spares with
  | nil =>
    rw [List.map_eq_nil_iff.mp hJoints] at hs
    cases hs
  | cons node nodes ih =>
    cases spares with
    | nil => cases hJoints
    | cons spare spares =>
      obtain ⟨hHead, hTail⟩ := List.forall_mem_cons.mp hNodes
      obtain ⟨hLength, hJoints⟩ := List.cons.inj hJoints
      have hSplit : s ∈ node.action.operands.map pl.slot ++ spare ∨
          s ∈ (uses nodes).map pl.slot ++ spares.flatten := by
        simp only [uses, List.flatMap_cons, List.map_append, List.flatten_cons,
          List.mem_append] at hs ⊢
        tauto
      rw [codes]
      rcases hSplit with hs | hs
      · obtain ⟨i, hi, hSlot⟩ := Action.mem_slots_code hHead pl hLength hs
        exact ⟨i, List.mem_append_left _ hi, hSlot⟩
      · obtain ⟨i, hi, hSlot⟩ := ih hTail hJoints hs
        exact ⟨i, List.mem_append_right _ hi, hSlot⟩

namespace Layout.Sound

variable {l : Layout} {g : Graph} {roots : List BlockId}

theorem exists_spares (h : l.Sound g roots) {origin : BlockId} (hOrigin : origin ∈ l.origins) :
    ∃ spares, spares.map List.length = (g.nodes origin).map (·.action.joints) ∧
      g.render l.toPlacement l.slotCount origin spares ∈ (l.program g).blocks := by
  obtain ⟨spares, -, hJoints, hBlock⟩ := h.block?_label hOrigin
  exact ⟨spares, hJoints, List.mem_of_getElem? hBlock⟩

theorem exists_origin (h : l.Sound g roots) {spares : List (List Slot)} (hSpares : spares ∈ l.spares) :
    ∃ origin ∈ l.origins, spares.map List.length = (g.nodes origin).map (·.action.joints) ∧
      g.render l.toPlacement l.slotCount origin spares ∈ (l.program g).blocks := by
  obtain ⟨i, hi⟩ := List.mem_iff_getElem?.mp hSpares
  have hLt : i < l.origins.length := by
    rw [Graph.length_eq_of_joints h.joints]
    exact (List.getElem?_eq_some_iff.mp hi).1
  obtain ⟨origin, hOrigin⟩ : ∃ o, l.origins[i]? = some o := ⟨_, List.getElem?_eq_getElem hLt⟩
  have hJoints := congrArg (·[i]?) h.joints
  simp only [List.getElem?_map, hOrigin, hi, Option.map_some, Option.some.injEq] at hJoints
  refine ⟨origin, List.mem_of_getElem? hOrigin, hJoints, List.mem_of_getElem? (i := i) ?_⟩
  rw [program, List.getElem?_zipWith, hOrigin, hi]

theorem named_iff_lt (h : l.Sound g roots) (s : Slot) :
    (∃ b ∈ (l.program g).blocks, ∃ i ∈ b.instrs, s ∈ i.slots) ↔ s < l.slotCount := by
  constructor
  · rintro ⟨b, hb, i, hi, hs⟩
    obtain ⟨k, hk⟩ := List.mem_iff_getElem?.mp hb
    have hResolves := ((h.wellFormed.blocks_wf k b hk).resolves i hi).1 s hs
    obtain ⟨origin, spares, -, -, -, rfl⟩ := h.block_eq hk
    exact hResolves
  · intro hs
    rcases List.mem_append.mp (h.slots.symm.subset (List.mem_range.mpr hs)) with hs | hs
    · obtain ⟨o, ho, rfl⟩ := List.mem_map.mp hs
      obtain ⟨origin, hOrigin, hUse⟩ := Graph.mem_operandsOf.mp ho
      obtain ⟨spares, hJoints, hBlock⟩ := h.exists_spares hOrigin
      refine ⟨_, hBlock, ?_⟩
      apply Node.mem_slots_codes (h.covers origin hOrigin).lowerable l.toPlacement hJoints
      exact List.mem_append_left _ (List.mem_map_of_mem hUse)
    · obtain ⟨spare, hSpare, hs⟩ := List.mem_flatten.mp hs
      obtain ⟨spares, hSpares, hSpare⟩ := List.mem_flatten.mp hSpare
      obtain ⟨origin, hOrigin, hJoints, hBlock⟩ := h.exists_origin hSpares
      refine ⟨_, hBlock, ?_⟩
      apply Node.mem_slots_codes (h.covers origin hOrigin).lowerable l.toPlacement hJoints
      exact List.mem_append_right _ (List.mem_flatten.mpr ⟨spare, hSpare, hs⟩)

theorem enter_of_some {origin : BlockId} {spares : List (List Slot)} {scope : Scope}
    {cameFrom : Option Label} {s : Slot} {v : Value}
    (hOther : ∀ o, (g.literal? o).isSome = true → l.slot o ≠ s) (hv : scope[s]? = some v) :
    ((g.render l.toPlacement l.slotCount origin spares).enter scope cameFrom).scope[s]? =
      some v := by
  apply CodeBlock.loadConstants_eq_some
  · intro c hc hSlot
    obtain ⟨-, hEq, hLiteral⟩ := Graph.mem_constants.mp hc
    exact absurd (hEq ▸ hSlot) (hOther c.operand (Option.isSome_of_eq_some hLiteral))
  · exact .inl (CodeBlock.grow_of_some _ hv)

theorem allocates (h : l.Sound g roots) (hInjective : Function.Injective l.slot)
    (hApart : ∀ o, l.slot o ∉ l.spares.flatten.flatten) :
    (l.program g).Allocates g l.toPlacement l.spares where
  injective := hInjective
  temporaries b hb o s := by
    obtain ⟨origin, -, spares, rfl⟩ := h.exists_render hb
    exact Graph.mem_slotTable_iff
  literals b hb := by
    obtain ⟨origin, -, spares, rfl⟩ := h.exists_render hb
    exact Graph.operands_constants
  values b hb c hc := by
    obtain ⟨origin, -, spares, rfl⟩ := h.exists_render hb
    exact (Graph.mem_constants.mp hc).2
  dense := h.named_iff_lt
  kept b hb s hs scope cameFrom v hv := by
    obtain ⟨origin, -, spares, rfl⟩ := h.exists_render hb
    apply enter_of_some _ hv
    rintro o hLiteral rfl
    rcases hs with hs | ⟨o', hTemporary, hSlot⟩
    · exact hApart o hs
    · rw [hInjective hSlot, Graph.literal?_eq_none hTemporary] at hLiteral
      cases hLiteral

end Layout.Sound

namespace Graph

/-- One injective placement says where everything of a program goes: the temporaries and literals
that a block lists, and the spare slots of its nodes, which no operand has. Together they fill the
scope, and loading the literals of a block leaves temporaries and partial results alone. -/
theorem lower_allocates {g : Graph} {roots : List BlockId} {p : Program}
    (h : g.lower roots = .ok p) :
    ∃ pl spares, p.SpelledFrom g pl spares ∧ p.Allocates g pl spares := by
  obtain ⟨l, hSound, rfl, hInjective, hApart⟩ := exists_spread_layout h
  exact ⟨l.toPlacement, l.spares, hSound.spelledFrom hApart, hSound.allocates hInjective hApart⟩

/-- Two lists to join in each of two blocks, over the same literals and the same temporary, and an
operand that is only used in a block out of reach. -/
def choir : Graph where
  operands := [.literal (.string "la"), .temporary (some "verse"), .literal (.integer 2),
    .literal (.float 0)]
  blocks := [
    [⟨.concatList [⟨0⟩, ⟨2⟩, ⟨0⟩] ⟨1⟩, some 1⟩, ⟨.concatList [⟨1⟩, ⟨0⟩] ⟨1⟩, some 2⟩,
      ⟨.jump ⟨1⟩, none⟩],
    [⟨.concatList [⟨2⟩, ⟨1⟩] ⟨1⟩, some 4⟩, ⟨.branch ⟨0⟩ ⟨0⟩ ⟨1⟩, some 5⟩],
    [⟨.echo ⟨3⟩, none⟩]]

def choirProgram : Program where
  blocks := [
    { label := ⟨0⟩, origin := ⟨0⟩
      instrs := [.binary .concat 2 0 1, .binary .concat 3 2 0, .assign 4 4 3,
        .binary .concat 5 4 0, .assign 4 4 5, .jump ⟨1⟩]
      lines := [some 1, some 1, some 1, some 2, some 2, none]
      slots := .ofList [(⟨1⟩, 4)]
      constants := [⟨⟨0⟩, 0, .ofString "la"⟩, ⟨⟨2⟩, 1, .integer 2⟩], scopeSize := 7 },
    { label := ⟨1⟩, origin := ⟨1⟩
      instrs := [.binary .concat 6 1 4, .assign 4 4 6, .branch 0 ⟨0⟩ ⟨1⟩]
      lines := [some 4, some 4, some 5]
      slots := .ofList [(⟨1⟩, 4)]
      constants := [⟨⟨2⟩, 1, .integer 2⟩, ⟨⟨0⟩, 0, .ofString "la"⟩], scopeSize := 7 }]
  entry := ⟨0⟩
  slotCount := 7

theorem lower_allocates_choir : choir.lower [⟨0⟩] = .ok choirProgram ∧
    ∃ pl spares, choirProgram.SpelledFrom choir pl spares ∧
      choirProgram.Allocates choir pl spares := by
  have hLower : choir.lower [⟨0⟩] = .ok choirProgram := by decide +kernel
  exact ⟨hLower, lower_allocates hLower⟩

end Graph

end BlockMachine
