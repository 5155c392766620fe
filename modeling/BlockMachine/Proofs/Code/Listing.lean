import BlockMachine.Proofs.Code.Lines
import BlockMachine.Proofs.Code.Verifier

/-!
# A listing determines the code
Two well-formed programs with one listing have the same code, and the same constants when the
strings among them are UTF-8. No constant can disturb the listing around it.
-/

namespace BlockMachine
set_option autoImplicit false

open Text

section Apart

namespace Program

theorem toList_join_feeds (ls : List String) : (String.join (ls.map (· ++ "\n"))).toList =
    ['\n'].intercalate (ls.map String.toList ++ [[]]) := by
  rw [String.toList_join, List.flatMap_map]
  induction ls with
  | nil => rfl
  | cons l ls ih =>
    obtain ⟨next, rest, hRest⟩ := List.exists_cons_of_ne_nil
      (List.append_ne_nil_of_right_ne_nil (ls.map String.toList) (List.cons_ne_nil [] []))
    rw [List.flatMap_cons, ih, List.map_cons, List.cons_append, hRest, List.intercalate_cons_cons,
      String.toList_append]
    rfl

theorem splitOn_listing (p : Program) :
    p.listing.toList.splitOn '\n' = p.lines.map String.toList ++ [[]] := by
  rw [listing, toList_join_feeds]
  refine List.splitOn_intercalate '\n' (fun l hl => ?_)
    (List.append_ne_nil_of_right_ne_nil _ (List.cons_ne_nil [] []))
  rcases List.mem_append.mp hl with hl | hl
  · obtain ⟨line, hLine, rfl⟩ := List.mem_map.mp hl
    exact feed_not_mem_lines hLine
  · rw [List.mem_singleton.mp hl]
    exact List.not_mem_nil

theorem constantsApart (p : Program) : p.ConstantsApart where
  split_eq := p.splitOn_listing
  constant_lines := by
    obtain ⟨hFront, -⟩ := filter_of_not_constant fun _ => frontLines_not_constant (p := p)
    rw [lines_eq, List.filter_append, List.filter_flatMap, hFront, List.nil_append]
    simp only [filter_blockLines]
  other_lines := by
    obtain ⟨-, hFront⟩ := filter_of_not_constant fun _ => frontLines_not_constant (p := p)
    have hSame : p.withoutConstants.frontLines = p.frontLines := by
      rw [frontLines, entryLine, withoutConstants, List.length_map]
      rfl
    have hBlocks : p.withoutConstants.blocks = p.blocks.map CodeBlock.withoutConstants := rfl
    rw [lines_eq, lines_eq, List.filter_append, List.filter_flatMap, hFront, hSame, hBlocks,
      List.flatMap_map]
    simp only [filter_not_blockLines]

end Program

end Apart

section Determined

theorem map_eq_map_of {α β γ : Type} {f : α → β} {g : α → γ} {xs ys : List α}
    (hInj : ∀ x ∈ xs, ∀ y ∈ ys, f x = f y → g x = g y) (h : xs.map f = ys.map f) :
    xs.map g = ys.map g := by
  induction xs generalizing ys with
  | nil =>
    rw [List.map_eq_nil_iff.mp h.symm]
  | cons x xs ih =>
    cases ys with
    | nil => cases h
    | cons y ys =>
      obtain ⟨hHead, hTail⟩ := List.cons.inj h
      have hRest : xs.map g = ys.map g := ih (fun a ha b hb =>
        hInj a (List.mem_cons_of_mem x ha) b (List.mem_cons_of_mem y hb)) hTail
      rw [List.map_cons, List.map_cons, hInj x List.mem_cons_self y List.mem_cons_self hHead, hRest]

namespace Program

variable {p q : Program} {b c : CodeBlock}

theorem lines_eq_of_line_eq (hb : b.lines.length = b.instrs.length)
    (hc : c.lines.length = c.instrs.length) (hInstrs : b.instrs = c.instrs)
    (h : ∀ k < b.instrs.length, b.line k = c.line k) : b.lines = c.lines := by
  refine List.ext_getElem (by rw [hb, hc, hInstrs]) fun k hkb hkc => ?_
  have hLine := h k (hb ▸ hkb)
  rw [CodeBlock.line, CodeBlock.line, List.getElem?_eq_getElem hkb,
    List.getElem?_eq_getElem hkc] at hLine
  exact hLine

theorem ne_rule {line : String} (h : line ∈ p.sourceLines b ++ b.constants.map (·.line)) :
    line ≠ rule := by
  rcases List.mem_append.mp h with h | h
  · rw [sourceLines] at h
    split at h
    · cases h
    · rw [List.mem_singleton.mp h]
      intro hRule
      have hChars := congrArg String.toList hRule
      rw [String.toList_append, toList_rule] at hChars
      exact absurd (List.cons.inj hChars).1 (by decide)
  · obtain ⟨c, -, rfl⟩ := List.mem_map.mp h
    intro hRule
    have hConstant := c.isConstantLine_line
    rw [hRule, rule_not_constant] at hConstant
    cases hConstant

theorem constants_eq_of_above (h : p.sourceLines b ++ b.constants.map (·.line) =
      q.sourceLines c ++ c.constants.map (·.line)) :
    b.constants.map (·.line) = c.constants.map (·.line) := by
  have hFilter := congrArg (List.filter isConstantLine) h
  have hSources (p : Program) (b : CodeBlock) : (p.sourceLines b).filter isConstantLine = [] :=
    (filter_of_not_constant fun _ => sourceLines_not_constant).1
  rw [List.filter_append, List.filter_append, hSources, hSources, (filter_constants b).1,
    (filter_constants c).1] at hFilter
  exact hFilter

/-- The lines of the constants end at the second rule, and the count of instructions says where the
block ends. -/
theorem blockLines_append_inj {rest tail : List String} (hb : b.lines.length = b.instrs.length)
    (hc : c.lines.length = c.instrs.length)
    (h : p.blockLines b ++ rest = q.blockLines c ++ tail) :
    (b.SameCode c ∧ b.constants.map (·.line) = c.constants.map (·.line)) ∧ rest = tail := by
  simp only [blockLines_eq, headLines, codeLines, List.cons_append, List.nil_append,
    List.append_assoc, List.cons.injEq, true_and] at h
  obtain ⟨hTitle, hCount, hLines⟩ := h
  rw [← List.append_assoc, ← List.append_assoc (q.sourceLines c)] at hLines
  have hRun (p : Program) (b : CodeBlock) :
      ∀ line ∈ p.sourceLines b ++ b.constants.map (·.line), (line != rule) = true :=
    fun line hl => bne_iff_ne.mpr (ne_rule hl)
  have hStop (ls : List String) : ∀ line ∈ (rule :: ls).head?, ¬ (line != rule) = true :=
    fun line hl hNe => bne_iff_ne.mp hNe (Option.some.inj hl).symm
  obtain ⟨hAbove, hBelow⟩ := run_inj (hRun p b) (hRun q c) (hStop _) (hStop _) hLines
  have hConstants := constants_eq_of_above hAbove
  have hLength : (instrLines b 0 b.instrs).length = (instrLines c 0 c.instrs).length := by
    rw [length_instrLines, length_instrLines, countLine_inj hCount]
  obtain ⟨hCode, hRest⟩ := List.append_inj (List.cons.inj hBelow).2 hLength
  obtain ⟨hInstrs, hTable⟩ := instrLines_inj hCode
  simp only [Nat.zero_add] at hTable
  obtain ⟨hLabel, hOrigin⟩ := titleLine_inj hTitle
  have hSame : b.SameCode c := {
    label_eq := hLabel
    origin_eq := hOrigin
    instrs_eq := hInstrs
    lines_eq := lines_eq_of_line_eq hb hc hInstrs hTable
    slots_eq := map_eq_map_of (fun x _ y _ hxy => (Constant.line_inj hxy).1) hConstants }
  exact ⟨⟨hSame, hConstants⟩, (List.cons.inj hRest).2⟩

theorem flatMap_blockLines_inj {bs cs : List CodeBlock} (hLength : bs.length = cs.length)
    (hb : ∀ b ∈ bs, b.lines.length = b.instrs.length)
    (hc : ∀ c ∈ cs, c.lines.length = c.instrs.length)
    (h : bs.flatMap p.blockLines = cs.flatMap q.blockLines) :
    List.Forall₂ (fun b c => b.SameCode c ∧ b.constants.map (·.line) = c.constants.map (·.line))
      bs cs := by
  induction bs generalizing cs with
  | nil =>
    rw [List.eq_nil_of_length_eq_zero hLength.symm]
    exact .nil
  | cons b bs ih =>
    obtain ⟨c, cs, rfl⟩ := List.exists_cons_of_length_eq_add_one hLength.symm
    obtain ⟨hBlock, hBlocks⟩ := List.forall_mem_cons.mp hb
    obtain ⟨hOther, hOthers⟩ := List.forall_mem_cons.mp hc
    rw [List.flatMap_cons, List.flatMap_cons] at h
    obtain ⟨hHead, hTail⟩ := blockLines_append_inj hBlock hOther h
    exact .cons hHead (ih (Nat.succ.inj hLength) hBlocks hOthers hTail)

theorem lines_eq_of_listing_eq (h : p.listing = q.listing) : p.lines = q.lines := by
  have hSplit : p.lines.map String.toList ++ [[]] = q.lines.map String.toList ++ [[]] := by
    rw [← splitOn_listing, ← splitOn_listing, h]
  exact (List.map_inj_right fun _ _ => String.toList_inj.mp).mp (List.append_cancel_right hSplit)

theorem sameValues_of_lines {bs cs : List CodeBlock}
    (hb : ∀ b ∈ bs, ∀ x ∈ b.constants, x.value.IsText)
    (hc : ∀ c ∈ cs, ∀ x ∈ c.constants, x.value.IsText)
    (h : List.Forall₂ (fun b c => b.constants.map (·.line) = c.constants.map (·.line)) bs cs) :
    List.Forall₂ CodeBlock.SameValues bs cs := by
  induction h with
  | nil => exact .nil
  | cons hLines _ ih =>
    obtain ⟨hBlock, hBlocks⟩ := List.forall_mem_cons.mp hb
    obtain ⟨hOther, hOthers⟩ := List.forall_mem_cons.mp hc
    refine .cons (map_eq_map_of (fun x hx y hy hxy => ?_) hLines) (ih hBlocks hOthers)
    exact Value.text_inj (hBlock x hx) (hOther y hy) (Constant.line_inj hxy).2

theorem WellFormed.lines_length {p : Program} (h : p.WellFormed) :
    ∀ b ∈ p.blocks, b.lines.length = b.instrs.length := by
  intro b hb
  obtain ⟨i, hi⟩ := List.mem_iff_getElem?.mp hb
  exact (h.blocks_wf i b hi).lines_length

/-- A listing shows all the code of a well-formed program, and its constants when the strings among
them are UTF-8. No constant disturbs the lines around it. -/
theorem listing_determines (p q : Program) (hp : p.verify = .ok ()) (hq : q.verify = .ok ())
    (h : p.listing = q.listing) :
    p.SameCode q ∧ (p.HoldsText → q.HoldsText → p.SameValues q) ∧ p.ConstantsApart := by
  have hWellFormed : p.WellFormed := (verify_eq_ok_iff p).mp hp
  have hOther : q.WellFormed := (verify_eq_ok_iff q).mp hq
  have hLines := lines_eq_of_listing_eq h
  simp only [lines_eq, frontLines, List.cons_append, List.nil_append, List.cons.injEq,
    true_and] at hLines
  obtain ⟨hEntryLine, hBlockLines⟩ := hLines
  obtain ⟨hEntry, hLength, hSlots⟩ := entryLine_inj hEntryLine
  have hBlocks :=
    flatMap_blockLines_inj hLength hWellFormed.lines_length hOther.lines_length hBlockLines
  have hCode : p.SameCode q := ⟨hEntry, hSlots, hBlocks.imp fun _ _ hbc => hbc.1⟩
  exact ⟨hCode, fun hText hOtherText =>
    sameValues_of_lines hText hOtherText (hBlocks.imp fun _ _ hbc => hbc.2), constantsApart p⟩

/-- A block with a constant that looks like two lines of a listing. -/
def disguisedBlock (operand : OperandId) (slots : SlotTable) (scopeSize : Nat) : CodeBlock where
  label := ⟨0⟩
  origin := ⟨3⟩
  instrs := [.echo 1, .jump ⟨0⟩]
  lines := [some 7, none]
  slots := slots
  constants := [⟨operand, 1, .ofString "═\n const r0 = \"5\""⟩]
  scopeSize := scopeSize

def disguised (operand : OperandId) (slots : SlotTable) (scopeSize : Nat) : Program where
  blocks := [disguisedBlock operand slots scopeSize]
  entry := ⟨0⟩
  slotCount := 2

theorem listing_determines_disguised :
    disguised ⟨4⟩ .empty 2 ≠ disguised ⟨9⟩ (.ofList [(⟨1⟩, 0)]) 5 ∧
      (disguised ⟨4⟩ .empty 2).SameCode (disguised ⟨9⟩ (.ofList [(⟨1⟩, 0)]) 5) ∧
      (disguised ⟨4⟩ .empty 2).SameValues (disguised ⟨9⟩ (.ofList [(⟨1⟩, 0)]) 5) ∧
      (disguised ⟨4⟩ .empty 2).ConstantsApart := by
  have hText (o : OperandId) (slots : SlotTable) (n : Nat) : (disguised o slots n).HoldsText := by
    intro b hb c hc bytes hBytes
    rw [List.mem_singleton.mp hb] at hc
    rw [List.mem_singleton.mp hc] at hBytes
    cases hBytes
    exact ⟨_, rfl⟩
  obtain ⟨hCode, hValues, hApart⟩ := listing_determines (disguised ⟨4⟩ .empty 2)
    (disguised ⟨9⟩ (.ofList [(⟨1⟩, 0)]) 5) rfl rfl rfl
  exact ⟨by decide, hCode, hValues (hText _ _ _) (hText _ _ _), hApart⟩

end Program

end Determined

end BlockMachine
