import BlockMachine.Code.Verifier

/-!
# The verifier decides well-formedness
The search for a defect finds none exactly in well-formed programs.
-/

namespace BlockMachine.Program
set_option autoImplicit false

theorem block?_eq_none_iff (p : Program) (l : Label) :
    (p.block? l).isNone = true ↔ ¬ l.index < p.blocks.length := by
  simp [block?]

theorem exists_block? {p : Program} {l : Label} (h : l.index < p.blocks.length) :
    ∃ b, p.block? l = some b := ⟨p.blocks[l.index], List.getElem?_eq_getElem h⟩

theorem instrDefect?_eq_none_iff (p : Program) (b : CodeBlock) (pc : Nat) (i : Instr) :
    p.instrDefect? b pc i = none ↔ i.Resolves b.scopeSize p.blocks.length := by
  have hSlots : i.slots.find? (b.scopeSize ≤ ·) = none ↔ ∀ s ∈ i.slots, s < b.scopeSize := by
    simp [List.find?_eq_none]
  have hTargets : (i.targets.find? fun t => (p.block? t).isNone) = none ↔
      ∀ t ∈ i.targets, t.index < p.blocks.length := by
    simp only [List.find?_eq_none, block?_eq_none_iff, Nat.not_lt, Nat.not_le]
  rw [instrDefect?, Instr.Resolves]
  cases hFind : i.slots.find? (b.scopeSize ≤ ·) with
  | none => rw [Option.map_eq_none_iff, hTargets, and_iff_right (hSlots.mp hFind)]
  | some s =>
    have hOut : ¬ ∀ s ∈ i.slots, s < b.scopeSize := fun h => by
      rw [hSlots.mpr h] at hFind
      cases hFind
    simp [hOut]

theorem instrsDefect?_eq_none_iff (p : Program) (b : CodeBlock) (pc : Nat) (is : List Instr) :
    p.instrsDefect? b pc is = none ↔ ∀ i ∈ is, i.Resolves b.scopeSize p.blocks.length := by
  induction is generalizing pc with
  | nil => simp [instrsDefect?]
  | cons i is ih =>
    rw [instrsDefect?, Option.orElse_eq_orElse, Option.orElse_eq_or, Option.or_eq_none_iff,
      instrDefect?_eq_none_iff, ih, List.forall_mem_cons]

theorem blockDefect?_eq_none_iff (p : Program) (index : Nat) (b : CodeBlock) :
    p.blockDefect? index b = none ↔ b.WellFormed p.blocks.length index := by
  have hConstants : b.constants.find? (b.scopeSize ≤ ·.slot) = none ↔
      ∀ c ∈ b.constants, c.slot < b.scopeSize := by
    simp [List.find?_eq_none]
  constructor
  · intro h
    rw [blockDefect?] at h
    split at h
    · cases h
    · rename_i hLabel
      split at h
      · cases h
      · rename_i hLines
        split at h
        · cases h
        · rename_i hFind
          exact ⟨Decidable.not_not.mp hLabel, (Decidable.not_not.mp hLines).symm,
            hConstants.mp hFind, (instrsDefect?_eq_none_iff p b 0 b.instrs).mp h⟩
  · intro h
    rw [blockDefect?, if_neg (not_not_intro h.label_eq),
      if_neg (not_not_intro h.lines_length.symm), hConstants.mpr h.constants_lt]
    exact (instrsDefect?_eq_none_iff p b 0 b.instrs).mpr h.resolves

theorem blocksDefect?_eq_none_iff (p : Program) (index : Nat) (bs : List CodeBlock) :
    p.blocksDefect? index bs = none ↔
      ∀ (i : Nat) (b : CodeBlock), bs[i]? = some b → b.WellFormed p.blocks.length (index + i) := by
  induction bs generalizing index with
  | nil => simp [blocksDefect?]
  | cons b bs ih =>
    rw [blocksDefect?, Option.orElse_eq_orElse, Option.orElse_eq_or, Option.or_eq_none_iff,
      blockDefect?_eq_none_iff, ih]
    constructor
    · rintro ⟨hHead, hTail⟩ i c hc
      cases i with
      | zero =>
        cases hc
        exact hHead
      | succ i =>
        have hShift : index + (i + 1) = index + 1 + i := by omega
        exact hShift ▸ hTail i c hc
    · intro h
      refine ⟨h 0 b rfl, fun i c hc => ?_⟩
      have hShift : index + 1 + i = index + (i + 1) := by omega
      exact hShift ▸ h (i + 1) c hc

theorem defect?_eq_none_iff (p : Program) : p.defect? = none ↔ p.WellFormed := by
  have hBlocks := blocksDefect?_eq_none_iff p 0 p.blocks
  simp only [Nat.zero_add] at hBlocks
  rw [defect?]
  constructor
  · intro h
    split at h
    · cases h
    · rename_i hEntry
      exact ⟨Decidable.not_not.mp (mt (block?_eq_none_iff p p.entry).mpr hEntry), hBlocks.mp h⟩
  · intro h
    rw [if_neg (mt (block?_eq_none_iff p p.entry).mp (not_not_intro h.entry_lt))]
    exact hBlocks.mpr h.blocks_wf

theorem verify_eq_ok_iff (p : Program) : p.verify = .ok () ↔ p.WellFormed := by
  rw [← defect?_eq_none_iff, verify]
  cases p.defect? <;> simp

theorem WellFormed.block {p : Program} (h : p.WellFormed) {l : Label} {b : CodeBlock}
    (hb : p.block? l = some b) : b.WellFormed p.blocks.length l.index := h.blocks_wf l.index b hb

theorem WellFormed.label_eq {p : Program} (h : p.WellFormed) {l : Label} {b : CodeBlock}
    (hb : p.block? l = some b) : b.label = l := congrArg Label.mk (h.block hb).label_eq

end BlockMachine.Program
