import BlockMachine.Proofs.Code.LineText

/-!
# The lines of a listing
Each line determines what it is made from. The first two characters tell the lines of constants from
the others, and no line has a line feed.
-/

namespace BlockMachine
set_option autoImplicit false

open Text

section Lines

def lineComment : Option Nat → List Char
  | none => []
  | some n => fill ["    ; line "] [n]

theorem stops_lineComment (line : Option Nat) : Stops (lineComment line) := by
  cases line with
  | none => exact stops_nil
  | some n =>
    rintro c ⟨⟩
    decide

theorem lineComment_inj {line line' : Option Nat} (h : lineComment line = lineComment line') :
    line = line' := by
  cases line with
  | none =>
    cases line' with
    | none => rfl
    | some _ => cases h
  | some m =>
    cases line' with
    | none => cases h
    | some n =>
      have hFill := congrArg (· ++ []) h
      obtain ⟨hNumbers, -⟩ := fill_append_inj (by decide) rfl rfl stops_nil stops_nil hFill
      exact congrArg some (List.cons.inj hNumbers).1

theorem Constant.toList_line (c : Constant) :
    c.line.toList = fill [" const r"] [c.slot] ++ (" = ".toList ++ c.value.text.toList) := by
  simp [line, fill, toString]

theorem Constant.line_inj {c d : Constant} (h : c.line = d.line) :
    c.slot = d.slot ∧ c.value.text = d.value.text := by
  have hChars := congrArg String.toList h
  rw [toList_line, toList_line] at hChars
  obtain ⟨hNumbers, hText⟩ := fill_label_inj (by decide) rfl rfl hChars
  exact ⟨(List.cons.inj hNumbers).1, String.toList_inj.mp hText⟩

namespace Program

variable {p q : Program} {b c : CodeBlock} {i j : Instr} {pc : Nat}

def entryLine (p : Program) : String :=
  s!"entry: {p.entry.text}, {p.blocks.length} blocks, {p.slotCount} slots"

def titleLine (p : Program) (b : CodeBlock) : String :=
  let marker := if p.entry = b.label then "▶ entry" else ""
  s!" {b.label.text} ({b.origin.text}) {marker}"

def countLine (b : CodeBlock) : String := s!" {b.instrs.length} instructions"

def sourceLines (p : Program) (b : CodeBlock) : List String :=
  if (p.predecessors b.label).isEmpty then []
  else [" from: " ++ ", ".intercalate ((p.predecessors b.label).map Label.text)]

def headLines (p : Program) (b : CodeBlock) : List String :=
  [rule, p.titleLine b, countLine b] ++ p.sourceLines b

def codeLines (b : CodeBlock) : List String := rule :: (instrLines b 0 b.instrs ++ [""])

theorem blockLines_eq (p : Program) (b : CodeBlock) :
    p.blockLines b = p.headLines b ++ (b.constants.map (·.line) ++ codeLines b) := by
  simp [blockLines, headLines, codeLines, titleLine, countLine, sourceLines, Constant.line]

def frontLines (p : Program) : List String := ["=== BYTECODE PROGRAM ===", p.entryLine, ""]

theorem lines_eq (p : Program) : p.lines = p.frontLines ++ p.blocks.flatMap p.blockLines := rfl

theorem toList_entryLine (p : Program) : p.entryLine.toList =
    fill ["entry: block", ", ", " blocks, "] [p.entry.index, p.blocks.length, p.slotCount] ++
      (" slots".toList ++ []) := by
  simp [entryLine, fill, Label.text, toString]

theorem toList_titleLine (p : Program) (b : CodeBlock) : (p.titleLine b).toList =
    fill [" block", " (Block#"] [b.label.index, b.origin.val] ++
      (") ".toList ++ (if p.entry = b.label then "▶ entry" else "").toList) := by
  simp [titleLine, fill, Label.text, BlockId.text, toString]

theorem toList_countLine (b : CodeBlock) : (countLine b).toList =
    fill [" "] [b.instrs.length] ++ (" instructions".toList ++ []) := by
  simp [countLine, fill, toString]

theorem toList_instrLine (b : CodeBlock) (pc : Nat) (i : Instr) : (instrLine b pc i).toList =
    (pcText pc).toList ++ ("   ".toList ++ (i.text.toList ++ lineComment (b.line pc))) := by
  rw [instrLine]
  cases b.line pc <;> simp [lineComment, fill, toString]

theorem entryLine_inj (h : p.entryLine = q.entryLine) :
    p.entry = q.entry ∧ p.blocks.length = q.blocks.length ∧ p.slotCount = q.slotCount := by
  have hChars := congrArg String.toList h
  rw [toList_entryLine, toList_entryLine] at hChars
  obtain ⟨hNumbers, -⟩ := fill_label_inj (by decide) rfl rfl hChars
  simp only [List.cons.injEq, and_true] at hNumbers
  exact ⟨congrArg Label.mk hNumbers.1, hNumbers.2⟩

theorem titleLine_inj (h : p.titleLine b = q.titleLine c) :
    b.label = c.label ∧ b.origin = c.origin := by
  have hChars := congrArg String.toList h
  rw [toList_titleLine, toList_titleLine] at hChars
  obtain ⟨hNumbers, -⟩ := fill_label_inj (by decide) rfl rfl hChars
  simp only [List.cons.injEq, and_true] at hNumbers
  exact ⟨congrArg Label.mk hNumbers.1, congrArg BlockId.mk hNumbers.2⟩

theorem countLine_inj (h : countLine b = countLine c) : b.instrs.length = c.instrs.length := by
  have hChars := congrArg String.toList h
  rw [toList_countLine, toList_countLine] at hChars
  obtain ⟨hNumbers, -⟩ := fill_label_inj (by decide) rfl rfl hChars
  exact (List.cons.inj hNumbers).1

theorem instrLine_inj (h : instrLine b pc i = instrLine c pc j) :
    i = j ∧ b.line pc = c.line pc := by
  have hChars := congrArg String.toList h
  rw [toList_instrLine, toList_instrLine] at hChars
  have hText := List.append_cancel_left (List.append_cancel_left hChars)
  obtain ⟨hInstr, hComment⟩ :=
    Instr.text_append_inj (stops_lineComment _) (stops_lineComment _) hText
  exact ⟨hInstr, lineComment_inj hComment⟩

theorem length_instrLines (b : CodeBlock) (pc : Nat) (is : List Instr) :
    (instrLines b pc is).length = is.length := by
  induction is generalizing pc with
  | nil => rfl
  | cons i is ih => exact congrArg Nat.succ (ih (pc + 1))

theorem instrLines_inj {is js : List Instr} (h : instrLines b pc is = instrLines c pc js) :
    is = js ∧ ∀ k < is.length, b.line (pc + k) = c.line (pc + k) := by
  induction is generalizing js pc with
  | nil =>
    cases js with
    | nil => exact ⟨rfl, fun k hk => absurd hk (Nat.not_lt_zero k)⟩
    | cons => cases h
  | cons i is ih =>
    cases js with
    | nil => cases h
    | cons j js =>
      obtain ⟨hLine, hLines⟩ := List.cons.inj h
      obtain ⟨rfl, hHead⟩ := instrLine_inj hLine
      obtain ⟨rfl, hTail⟩ := ih hLines
      refine ⟨rfl, fun k hk => ?_⟩
      cases k with
      | zero => exact hHead
      | succ k =>
        have hShift : pc + (k + 1) = pc + 1 + k := by omega
        rw [hShift]
        exact hTail k (Nat.lt_of_succ_lt_succ hk)

end Program

end Lines

section Apart

theorem Constant.isConstantLine_line (c : Constant) : isConstantLine c.line := by
  refine List.isPrefixOf_iff_prefix.mpr
    ⟨Nat.toDigits 10 c.slot ++ (" = ".toList ++ c.value.text.toList), ?_⟩
  rw [c.toList_line, fill_cons]
  simp [fill]

theorem not_isConstantLine {line : String} {s : List Char} (h : line.toList = s)
    (hStart : ¬ (s[0]? = some ' ' ∧ s[1]? = some 'c')) : isConstantLine line = false := by
  refine Bool.eq_false_iff.mpr fun hLine => hStart ?_
  obtain ⟨rest, hRest⟩ := List.isPrefixOf_iff_prefix.mp hLine
  rw [← h, ← hRest]
  exact ⟨rfl, rfl⟩

namespace Program

variable {p : Program} {b : CodeBlock} {line : String}

theorem toList_rule : rule.toList = List.replicate 40 '═' := String.toList_ofList

theorem pcText_digits (pc : Nat) :
    (pcText pc).toList ≠ [] ∧ ∀ c ∈ (pcText pc).toList, c.isDigit := by
  rw [pcText, String.toList_ofList, List.leftpad]
  refine ⟨fun h => Nat.toDigits_ne_nil (List.append_eq_nil_iff.mp h).2, fun c hc => ?_⟩
  rcases List.mem_append.mp hc with hc | hc
  · rw [List.eq_of_mem_replicate hc]
    rfl
  · exact Decimal.isDigit_of_mem hc

theorem titleLine_not_constant (p : Program) (b : CodeBlock) :
    isConstantLine (p.titleLine b) = false :=
  not_isConstantLine (p.toList_titleLine b) fun h => absurd (Option.some.inj h.2) (by decide)

theorem countLine_not_constant (b : CodeBlock) : isConstantLine (countLine b) = false := by
  obtain ⟨d, ds, hDigits⟩ :=
    List.exists_cons_of_ne_nil (@Nat.toDigits_ne_nil b.instrs.length 10)
  have hDigit : d.isDigit := Decimal.isDigit_of_mem (hDigits ▸ List.mem_cons_self)
  refine not_isConstantLine (toList_countLine b) fun h => ?_
  rw [fill_cons, hDigits] at h
  rw [Option.some.inj h.2] at hDigit
  exact absurd hDigit (by decide)

theorem sourceLines_not_constant (h : line ∈ p.sourceLines b) : isConstantLine line = false := by
  rw [sourceLines] at h
  split at h
  · cases h
  · rw [List.mem_singleton.mp h]
    exact not_isConstantLine String.toList_append
      fun hStart => absurd (Option.some.inj hStart.2) (by decide)

theorem instrLine_not_constant (b : CodeBlock) (pc : Nat) (i : Instr) :
    isConstantLine (instrLine b pc i) = false := by
  obtain ⟨hSome, hDigits⟩ := pcText_digits pc
  obtain ⟨d, ds, hText⟩ := List.exists_cons_of_ne_nil hSome
  have hDigit : d.isDigit := hDigits d (hText ▸ List.mem_cons_self)
  refine not_isConstantLine (toList_instrLine b pc i) fun h => ?_
  rw [hText] at h
  rw [Option.some.inj h.1] at hDigit
  exact absurd hDigit (by decide)

theorem mem_instrLines {is : List Instr} {pc : Nat} (h : line ∈ instrLines b pc is) :
    ∃ k i, line = instrLine b k i := by
  induction is generalizing pc with
  | nil => cases h
  | cons i is ih =>
    rcases List.mem_cons.mp h with rfl | h
    · exact ⟨pc, i, rfl⟩
    · exact ih h

theorem rule_not_constant : isConstantLine rule = false :=
  not_isConstantLine toList_rule fun h => absurd (Option.some.inj h.1) (by decide)

theorem frontLines_not_constant (h : line ∈ p.frontLines) : isConstantLine line = false := by
  simp only [frontLines, List.mem_cons, List.not_mem_nil, or_false] at h
  rcases h with rfl | rfl | rfl
  · exact not_isConstantLine rfl fun h => absurd (Option.some.inj h.1) (by decide)
  · exact not_isConstantLine p.toList_entryLine fun h => absurd (Option.some.inj h.1) (by decide)
  · exact not_isConstantLine rfl fun h => absurd h.1 (by decide)

theorem headLines_not_constant (h : line ∈ p.headLines b) : isConstantLine line = false := by
  simp only [headLines, List.mem_append, List.mem_cons, List.not_mem_nil, or_false] at h
  rcases h with (rfl | rfl | rfl) | h
  · exact rule_not_constant
  · exact titleLine_not_constant p b
  · exact countLine_not_constant b
  · exact sourceLines_not_constant h

theorem codeLines_not_constant (h : line ∈ codeLines b) : isConstantLine line = false := by
  simp only [codeLines, List.mem_append, List.mem_cons, List.not_mem_nil, or_false] at h
  rcases h with rfl | h | rfl
  · exact rule_not_constant
  · obtain ⟨k, i, rfl⟩ := mem_instrLines h
    exact instrLine_not_constant b k i
  · exact not_isConstantLine rfl fun h => absurd h.1 (by decide)

theorem filter_of_not_constant {ls : List String} (h : ∀ line ∈ ls, isConstantLine line = false) :
    ls.filter isConstantLine = [] ∧ ls.filter (fun line => !isConstantLine line) = ls := by
  refine ⟨List.filter_eq_nil_iff.mpr fun line hl => ?_, List.filter_eq_self.mpr fun line hl => ?_⟩
  · rw [h line hl]
    decide
  · rw [h line hl]
    rfl

theorem filter_constants (b : CodeBlock) :
    (b.constants.map (·.line)).filter isConstantLine = b.constants.map (·.line) ∧
      (b.constants.map (·.line)).filter (fun line => !isConstantLine line) = [] := by
  have hConstant : ∀ line ∈ b.constants.map (·.line), isConstantLine line = true := by
    intro line h
    obtain ⟨c, -, rfl⟩ := List.mem_map.mp h
    exact c.isConstantLine_line
  refine ⟨List.filter_eq_self.mpr hConstant, List.filter_eq_nil_iff.mpr fun line h => ?_⟩
  rw [hConstant line h]
  decide

theorem filter_blockLines (p : Program) (b : CodeBlock) :
    (p.blockLines b).filter isConstantLine = b.constants.map (·.line) := by
  obtain ⟨hHead, -⟩ := filter_of_not_constant fun _ => headLines_not_constant (p := p) (b := b)
  obtain ⟨hCode, -⟩ := filter_of_not_constant fun _ => codeLines_not_constant (b := b)
  rw [blockLines_eq, List.filter_append, List.filter_append, hHead, hCode,
    (filter_constants b).1, List.nil_append, List.append_nil]

theorem predecessors_withoutConstants (p : Program) (l : Label) :
    p.withoutConstants.predecessors l = p.predecessors l := by
  simp [predecessors, withoutConstants, CodeBlock.withoutConstants, List.filter_map,
    Function.comp_def]

theorem instrLines_withoutConstants (b : CodeBlock) (pc : Nat) (is : List Instr) :
    instrLines b.withoutConstants pc is = instrLines b pc is := by
  induction is generalizing pc with
  | nil => rfl
  | cons i is ih => exact congrArg (instrLine b pc i :: ·) (ih (pc + 1))

theorem filter_not_blockLines (p : Program) (b : CodeBlock) :
    (p.blockLines b).filter (fun line => !isConstantLine line) =
      p.withoutConstants.blockLines b.withoutConstants := by
  obtain ⟨-, hHead⟩ := filter_of_not_constant fun _ => headLines_not_constant (p := p) (b := b)
  obtain ⟨-, hCode⟩ := filter_of_not_constant fun _ => codeLines_not_constant (b := b)
  have hSameHead : p.withoutConstants.headLines b.withoutConstants = p.headLines b := by
    rw [headLines, headLines, sourceLines, sourceLines, predecessors_withoutConstants]
    rfl
  have hSameCode : codeLines b.withoutConstants = codeLines b := by
    rw [codeLines, codeLines, instrLines_withoutConstants]
    rfl
  rw [blockLines_eq, blockLines_eq, List.filter_append, List.filter_append, hHead, hCode,
    (filter_constants b).2, hSameHead, hSameCode]
  rfl

end Program

end Apart

section Feeds

theorem mem_intercalate {α : Type} {sep : List α} {parts : List (List α)} {x : α}
    (h : x ∈ sep.intercalate parts) : x ∈ sep ∨ ∃ part ∈ parts, x ∈ part := by
  induction parts with
  | nil => cases h
  | cons part parts ih =>
    cases parts with
    | nil => exact .inr ⟨part, List.mem_cons_self, by simpa using h⟩
    | cons next parts =>
      rw [List.intercalate_cons_cons, List.mem_append, List.mem_append] at h
      rcases h with (h | h) | h
      · exact .inr ⟨part, List.mem_cons_self, h⟩
      · exact .inl h
      · exact (ih h).imp_right fun ⟨other, hOther, hx⟩ =>
          ⟨other, List.mem_cons_of_mem part hOther, hx⟩

namespace Program

variable {p q : Program} {b c : CodeBlock} {line : String}

theorem feed_not_mem_headLines (h : line ∈ p.headLines b) : '\n' ∉ line.toList := by
  simp only [headLines, List.mem_append, List.mem_cons, List.not_mem_nil, or_false] at h
  rcases h with (rfl | rfl | rfl) | h
  · rw [toList_rule]
    exact fun hFeed => absurd (List.eq_of_mem_replicate hFeed) (by decide)
  · rw [toList_titleLine]
    refine List.not_mem_append (feed_not_mem_fill (by decide)) (List.not_mem_append (by decide) ?_)
    split <;> decide
  · rw [toList_countLine]
    exact List.not_mem_append (feed_not_mem_fill (by decide)) (by decide)
  · rw [sourceLines] at h
    split at h
    · cases h
    · rw [List.mem_singleton.mp h, String.toList_append, String.toList_intercalate]
      refine List.not_mem_append (by decide) fun hFeed => ?_
      rcases mem_intercalate hFeed with hFeed | ⟨part, hPart, hFeed⟩
      · exact absurd hFeed (by decide)
      · simp only [List.map_map, List.mem_map] at hPart
        obtain ⟨l, -, rfl⟩ := hPart
        have hLabel : l.text.toList = fill ["block"] [l.index] := by
          simp [Label.text, fill, toString]
        rw [Function.comp_apply, hLabel] at hFeed
        exact feed_not_mem_fill (by decide) hFeed

theorem feed_not_mem_codeLines (h : line ∈ codeLines b) : '\n' ∉ line.toList := by
  simp only [codeLines, List.mem_append, List.mem_cons, List.not_mem_nil, or_false] at h
  rcases h with rfl | h | rfl
  · rw [toList_rule]
    exact fun hFeed => absurd (List.eq_of_mem_replicate hFeed) (by decide)
  · obtain ⟨k, i, rfl⟩ := mem_instrLines h
    rw [toList_instrLine]
    refine List.not_mem_append (fun hFeed => absurd ((pcText_digits k).2 _ hFeed) (by decide))
      (List.not_mem_append (by decide) (List.not_mem_append i.feed_not_mem_text ?_))
    cases b.line k with
    | none => exact List.not_mem_nil
    | some n => exact feed_not_mem_fill (by decide)
  · decide

theorem feed_not_mem_blockLines (h : line ∈ p.blockLines b) : '\n' ∉ line.toList := by
  rw [blockLines_eq, List.mem_append, List.mem_append] at h
  rcases h with h | h | h
  · exact feed_not_mem_headLines h
  · obtain ⟨c, -, rfl⟩ := List.mem_map.mp h
    rw [c.toList_line]
    exact List.not_mem_append (feed_not_mem_fill (by decide))
      (List.not_mem_append (by decide) c.value.feed_not_mem_text)
  · exact feed_not_mem_codeLines h

theorem feed_not_mem_lines (h : line ∈ p.lines) : '\n' ∉ line.toList := by
  rw [lines_eq, List.mem_append] at h
  rcases h with h | h
  · simp only [frontLines, List.mem_cons, List.not_mem_nil, or_false] at h
    rcases h with rfl | rfl | rfl
    · decide
    · rw [toList_entryLine]
      exact List.not_mem_append (feed_not_mem_fill (by decide)) (by decide)
    · decide
  · obtain ⟨b, -, h⟩ := List.mem_flatMap.mp h
    exact feed_not_mem_blockLines h

end Program

end Feeds

end BlockMachine
