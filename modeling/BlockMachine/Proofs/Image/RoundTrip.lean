import BlockMachine.Image.Program
import BlockMachine.Proofs.Image.Exact

/-!
# Images read back
The image of a program whose numbers fit the widths they are written in is read as that program,
whatever comes after it, and no proper prefix of the image is read as anything.
-/

namespace BlockMachine
set_option autoImplicit false

def Value.Fits : Value → Prop
  | .string bytes => bytes.length < UInt64.size
  | _ => True

instance : DecidablePred Value.Fits
  | .string bytes => inferInstanceAs (Decidable (bytes.length < UInt64.size))
  | .unknown | .integer _ | .boolean _ => isTrue trivial

structure Instr.Fits (i : Instr) : Prop where
  slots_lt : ∀ s ∈ i.slots, s < UInt64.size
  targets_lt : ∀ t ∈ i.targets, t.index < UInt64.size

instance (i : Instr) : Decidable i.Fits :=
  decidable_of_iff ((∀ s ∈ i.slots, s < UInt64.size) ∧ ∀ t ∈ i.targets, t.index < UInt64.size)
    ⟨fun ⟨hSlots, hTargets⟩ => ⟨hSlots, hTargets⟩, fun h => ⟨h.slots_lt, h.targets_lt⟩⟩

structure Constant.Fits (c : Constant) : Prop where
  operand_lt : c.operand.val < UInt64.size
  slot_lt : c.slot < UInt64.size
  value_fits : c.value.Fits

instance (c : Constant) : Decidable c.Fits :=
  decidable_of_iff (c.operand.val < UInt64.size ∧ c.slot < UInt64.size ∧ c.value.Fits)
    ⟨fun ⟨hOperand, hSlot, hValue⟩ => ⟨hOperand, hSlot, hValue⟩,
      fun h => ⟨h.operand_lt, h.slot_lt, h.value_fits⟩⟩

/-- Numbers and lengths are words, source lines half words. -/
structure CodeBlock.Fits (b : CodeBlock) : Prop where
  label_lt : b.label.index < UInt64.size
  origin_lt : b.origin.val < UInt64.size
  instrs_fit : b.instrs.length < UInt64.size ∧ ∀ i ∈ b.instrs, i.Fits
  lines_fit : b.lines.length < UInt64.size ∧ ∀ line ∈ b.lines, ∀ n ∈ line, n < UInt32.size
  slots_fit : b.slots.entries.length < UInt64.size ∧
    ∀ e ∈ b.slots.entries, e.1.val < UInt64.size ∧ e.2 < UInt64.size
  constants_fit : b.constants.length < UInt64.size ∧ ∀ c ∈ b.constants, c.Fits
  scopeSize_lt : b.scopeSize < UInt64.size

instance (b : CodeBlock) : Decidable b.Fits :=
  decidable_of_iff (b.label.index < UInt64.size ∧ b.origin.val < UInt64.size ∧
      (b.instrs.length < UInt64.size ∧ ∀ i ∈ b.instrs, i.Fits) ∧
      (b.lines.length < UInt64.size ∧ ∀ line ∈ b.lines, ∀ n ∈ line, n < UInt32.size) ∧
      (b.slots.entries.length < UInt64.size ∧
        ∀ e ∈ b.slots.entries, e.1.val < UInt64.size ∧ e.2 < UInt64.size) ∧
      (b.constants.length < UInt64.size ∧ ∀ c ∈ b.constants, c.Fits) ∧
      b.scopeSize < UInt64.size)
    ⟨fun ⟨hLabel, hOrigin, hInstrs, hLines, hSlots, hConstants, hScope⟩ =>
      ⟨hLabel, hOrigin, hInstrs, hLines, hSlots, hConstants, hScope⟩,
      fun h => ⟨h.label_lt, h.origin_lt, h.instrs_fit, h.lines_fit, h.slots_fit, h.constants_fit,
        h.scopeSize_lt⟩⟩

structure Program.Fits (p : Program) : Prop where
  blocks_fit : p.blocks.length < UInt64.size ∧ ∀ b ∈ p.blocks, b.Fits
  entry_lt : p.entry.index < UInt64.size
  slotCount_lt : p.slotCount < UInt64.size

instance (p : Program) : Decidable p.Fits :=
  decidable_of_iff ((p.blocks.length < UInt64.size ∧ ∀ b ∈ p.blocks, b.Fits) ∧
      p.entry.index < UInt64.size ∧ p.slotCount < UInt64.size)
    ⟨fun ⟨hBlocks, hEntry, hSlots⟩ => ⟨hBlocks, hEntry, hSlots⟩,
      fun h => ⟨h.blocks_fit, h.entry_lt, h.slotCount_lt⟩⟩

namespace SlotTable

theorem insertEntry_of_last (o : OperandId) (s : Slot) (es : List (OperandId × Slot))
    (h : ∀ e ∈ es, e.1.val < o.val) : insertEntry o s es = es ++ [(o, s)] := by
  induction es with
  | nil => rfl
  | cons e es ih =>
    have hHead := h e List.mem_cons_self
    rw [insertEntry, if_neg (by omega), if_neg (by omega),
      ih fun d hd => h d (List.mem_cons_of_mem e hd), List.cons_append]

theorem entries_foldl_insert (back : List (OperandId × Slot)) (t : SlotTable)
    (h : Ascending (t.entries ++ back)) :
    (back.foldl (fun t e => t.insert e.1 e.2) t).entries = t.entries ++ back := by
  induction back generalizing t with
  | nil => rw [List.foldl_nil, List.append_nil]
  | cons e back ih =>
    have hLast : (t.insert e.1 e.2).entries = t.entries ++ [e] := by
      apply insertEntry_of_last
      intro d hd
      exact (List.pairwise_append.mp h).2.2 d hd e List.mem_cons_self
    have hAll : t.entries ++ e :: back = t.entries ++ [e] ++ back := by simp
    rw [List.foldl_cons, ih _ (by rw [hLast, ← hAll]; exact h), hLast, hAll]

theorem ofList_entries (t : SlotTable) : ofList t.entries = t := by
  obtain ⟨entries, hAscending⟩ := t
  have h : (ofList entries).entries = entries := entries_foldl_insert entries empty hAscending
  cases hTable : ofList entries
  simp only [hTable] at h
  subst h
  rfl

end SlotTable

namespace Image

open Format

theorem operandId_exact : operandId.Exact (·.val < UInt64.size) := word_exact.map fun _ => rfl

theorem blockId_exact : blockId.Exact (·.val < UInt64.size) := word_exact.map fun _ => rfl

theorem label_exact : label.Exact (·.index < UInt64.size) := word_exact.map fun _ => rfl

theorem bytes_exact : bytes.Exact (·.length < UInt64.size) :=
  (Exact.list byte_exact).mono fun _ h => ⟨h, fun _ _ => trivial⟩

theorem value_exact : value.Exact Value.Fits := by
  intro v hv
  cases v with
  | unknown => exact (halfWord_exact 0 (by decide)).bind (Reader.Takes.pure Value.unknown)
  | string bs => exact (halfWord_exact 1 (by decide)).bind ((bytes_exact bs hv).map Value.string)
  | integer n => exact (halfWord_exact 2 (by decide)).bind ((int64_exact n trivial).map Value.integer)
  | boolean b => exact (halfWord_exact 3 (by decide)).bind ((bool_exact b trivial).map Value.boolean)

theorem slots3_exact : slots3.Exact fun s =>
    s.1 < UInt64.size ∧ s.2.1 < UInt64.size ∧ s.2.2 < UInt64.size :=
  word_exact.pair (word_exact.pair word_exact)

theorem fetchSlots_exact : fetchSlots.Exact fun s =>
    s.1 < UInt64.size ∧ s.2.1 < UInt64.size ∧ ∀ q ∈ s.2.2, q < UInt64.size :=
  word_exact.pair (word_exact.pair word_exact.option)

theorem branchFields_exact : branchFields.Exact fun s =>
    s.1 < UInt64.size ∧ s.2.1.index < UInt64.size ∧ s.2.2.index < UInt64.size :=
  word_exact.pair (label_exact.pair label_exact)

theorem instr_exact : instr.Exact Instr.Fits := by
  rintro i ⟨hSlots, hTargets⟩
  cases i with
  | echo v =>
    have hv : v < UInt64.size := hSlots v (by simp [Instr.slots])
    exact (halfWord_exact 0 (by decide)).bind ((word_exact v hv).map Instr.echo)
  | assign result var expr =>
    have hFields := slots3_exact (result, var, expr) (by simpa [Instr.slots] using hSlots)
    exact (halfWord_exact 1 (by decide)).bind (hFields.map fun s => Instr.assign s.1 s.2.1 s.2.2)
  | binary op result left right =>
    have hFields := slots3_exact (result, left, right) (by simpa [Instr.slots] using hSlots)
    have hInstr := hFields.map fun s => Instr.binary op s.1 s.2.1 s.2.2
    rcases op with _ | (_ | _ | _) | (_ | _ | _ | _) | _ | _ <;>
      exact (halfWord_exact _ (by decide)).bind hInstr
  | constFetch result name qualified =>
    have hFields := fetchSlots_exact (result, name, qualified)
      (by simpa [Instr.slots] using hSlots)
    exact (halfWord_exact 12 (by decide)).bind
      (hFields.map fun s => Instr.constFetch s.1 s.2.1 s.2.2)
  | jump target =>
    have hTarget := label_exact target (by simpa [Instr.targets] using hTargets)
    exact (halfWord_exact 13 (by decide)).bind (hTarget.map Instr.jump)
  | branch cond ifTrue ifFalse =>
    have hFields := branchFields_exact (cond, ifTrue, ifFalse)
      ⟨by simpa [Instr.slots] using hSlots, by simpa [Instr.targets] using hTargets⟩
    exact (halfWord_exact 14 (by decide)).bind
      (hFields.map fun s => Instr.branch s.1 s.2.1 s.2.2)

theorem slotTable_exact : slotTable.Exact fun t =>
    t.entries.length < UInt64.size ∧
      ∀ e ∈ t.entries, e.1.val < UInt64.size ∧ e.2 < UInt64.size :=
  (Exact.list (operandId_exact.pair word_exact)).map SlotTable.ofList_entries

theorem constant_exact : constant.Exact Constant.Fits :=
  ((operandId_exact.pair (word_exact.pair value_exact)).map fun _ => rfl).mono
    fun _ h => ⟨h.operand_lt, h.slot_lt, h.value_fits⟩

theorem codeBlock_exact : codeBlock.Exact CodeBlock.Fits :=
  ((label_exact.pair (blockId_exact.pair ((Exact.list instr_exact).pair
    ((Exact.list (Exact.option halfWord_exact)).pair (slotTable_exact.pair
      ((Exact.list constant_exact).pair word_exact)))))).map fun _ => rfl).mono
    fun _ h => ⟨h.label_lt, h.origin_lt, h.instrs_fit, h.lines_fit, h.slots_fit,
      h.constants_fit, h.scopeSize_lt⟩

theorem program_exact : program.Exact Program.Fits :=
  (((Exact.list codeBlock_exact).pair (label_exact.pair word_exact)).map fun _ => rfl).mono
    fun _ h => ⟨h.blocks_fit, h.entry_lt, h.slotCount_lt⟩

end Image

namespace Program

/-- An image ends itself: what follows it is not looked at, and nothing shorter will do. -/
theorem ofImage_toImage (p : Program) (h : p.Fits) :
    (∀ rest, ofImage (p.toImage ++ rest) = .ok p) ∧
      ∀ front, front <+: p.toImage → front ≠ p.toImage → ofImage front = .error .endOfInput := by
  have hTakes := Image.program_exact p h
  constructor
  · intro rest
    rw [ofImage, toImage, hTakes.read_append rest]
    rfl
  · rintro front ⟨back, hBack⟩ hProper
    have hRest : back ≠ [] := by
      rintro rfl
      exact hProper (by rw [← hBack, List.append_nil])
    rw [ofImage, hTakes.read_short front back hBack.symm hRest]
    rfl

/-- A loop that looks up a constant, with numbers of one and of several bytes, a text that is not
UTF-8, and targets that need not exist. -/
def lookupLoop : Program where
  blocks := [{
    label := ⟨0⟩
    origin := ⟨300⟩
    instrs := [.constFetch 1 0 (some 200), .binary (.arithmetic .mul) 2 1 130, .echo 2,
      .branch 2 ⟨0⟩ ⟨70000⟩]
    lines := [some 70000, none, some 1, none]
    slots := .ofList [(⟨9⟩, 2), (⟨3⟩, 1)]
    constants := [⟨⟨4⟩, 0, .string [80, 255]⟩, ⟨⟨6⟩, 130, .integer (-5)⟩, ⟨⟨7⟩, 200, .unknown⟩]
    scopeSize := 201 }]
  entry := ⟨0⟩
  slotCount := 201

theorem ofImage_toImage_lookupLoop :
    lookupLoop.Fits ∧ (∀ rest, ofImage (lookupLoop.toImage ++ rest) = .ok lookupLoop) ∧
      ∀ front, front <+: lookupLoop.toImage → front ≠ lookupLoop.toImage →
        ofImage front = .error .endOfInput :=
  have hFits : lookupLoop.Fits := by decide
  ⟨hFits, ofImage_toImage lookupLoop hFits⟩

end Program

end BlockMachine
