import BlockMachine.Proofs.Code.SlotTable
import BlockMachine.Proofs.Image.Normal
import BlockMachine.Proofs.Image.RoundTrip

/-!
# Images of all kinds
Any bytes may be read as an image. What the reader decides, it decides on the bytes that it took,
and what it reads is written again in no more bytes: numbers in their shortest form, each operand
of a slot table once, and nothing behind the program.
-/

namespace BlockMachine
set_option autoImplicit false

namespace Image

open Format

theorem operandId_normal : operandId.Normal (·.val < UInt64.size) :=
  word_normal.map fun _ hn => ⟨hn, Nat.le_refl _⟩

theorem blockId_normal : blockId.Normal (·.val < UInt64.size) :=
  word_normal.map fun _ hn => ⟨hn, Nat.le_refl _⟩

theorem label_normal : label.Normal (·.index < UInt64.size) :=
  word_normal.map fun _ hn => ⟨hn, Nat.le_refl _⟩

theorem bytes_normal : bytes.Normal (·.length < UInt64.size) :=
  (Normal.list byte_normal).mono fun _ h => h.1

theorem length_tagged (tag : Nat) (fields : List UInt8) :
    (halfWord.write tag ++ fields).length ≤ fields.length + (halfWord.write tag).length := by
  apply Nat.le_of_eq
  rw [List.length_append, Nat.add_comm]

theorem value_normal : value.Normal Value.Fits where
  settles := by
    apply halfWord_normal.settles.bind
    intro tag
    split
    · exact .pure Value.unknown
    · exact bytes_normal.settles.map Value.string
    · exact int64_normal.settles.map Value.integer
    · exact bool_normal.settles.map Value.boolean
    · exact .throw .unknownTag
  affords := by
    apply halfWord_normal.affords.bind
    intro tag _
    split
    · exact .pure trivial (Nat.le_refl _)
    · exact (bytes_normal.spend _).bind fun bs hbs => .pure hbs (length_tagged 1 (bytes.write bs))
    · exact (int64_normal.spend _).bind fun n _ => .pure trivial (length_tagged 2 (int64.write n))
    · exact (bool_normal.spend _).bind fun b _ => .pure trivial (length_tagged 3 (bool.write b))
    · exact .throw

theorem slots3_normal : slots3.Normal fun s =>
    s.1 < UInt64.size ∧ s.2.1 < UInt64.size ∧ s.2.2 < UInt64.size :=
  word_normal.pair (word_normal.pair word_normal)

theorem fetchSlots_normal : fetchSlots.Normal fun s =>
    s.1 < UInt64.size ∧ s.2.1 < UInt64.size ∧ ∀ q ∈ s.2.2, q < UInt64.size :=
  word_normal.pair (word_normal.pair word_normal.option)

theorem branchFields_normal : branchFields.Normal fun s =>
    s.1 < UInt64.size ∧ s.2.1.index < UInt64.size ∧ s.2.2.index < UInt64.size :=
  word_normal.pair (label_normal.pair label_normal)

theorem operatorTag_of_some {tag : Nat} {op : Operator} (h : ofOperatorTag? tag = some op) :
    operatorTag op = tag := by
  unfold ofOperatorTag? at h
  split at h <;> cases h <;> rfl

theorem instr_normal : instr.Normal Instr.Fits where
  settles := by
    apply halfWord_normal.settles.bind
    intro tag
    split
    · exact word_normal.settles.map Instr.echo
    · exact slots3_normal.settles.map fun s => Instr.assign s.1 s.2.1 s.2.2
    · exact fetchSlots_normal.settles.map fun s => Instr.constFetch s.1 s.2.1 s.2.2
    · exact label_normal.settles.map Instr.jump
    · exact branchFields_normal.settles.map fun s => Instr.branch s.1 s.2.1 s.2.2
    · split
      · rename_i op _
        exact slots3_normal.settles.map fun s => Instr.binary op s.1 s.2.1 s.2.2
      · exact .throw .unknownTag
  affords := by
    apply halfWord_normal.affords.bind
    intro tag _
    split
    · apply (word_normal.spend _).bind
      intro v hv
      refine .pure ⟨?_, ?_⟩ (length_tagged 0 (word.write v))
      · simpa [Instr.slots] using hv
      · simp [Instr.targets]
    · apply (slots3_normal.spend _).bind
      rintro ⟨result, var, expr⟩ hSlots
      refine .pure ⟨?_, ?_⟩ (length_tagged 1 (slots3.write (result, var, expr)))
      · simpa [Instr.slots] using hSlots
      · simp [Instr.targets]
    · apply (fetchSlots_normal.spend _).bind
      rintro ⟨result, name, qualified⟩ hSlots
      refine .pure ⟨?_, ?_⟩ (length_tagged 12 (fetchSlots.write (result, name, qualified)))
      · simpa [Instr.slots] using hSlots
      · simp [Instr.targets]
    · apply (label_normal.spend _).bind
      intro target hTarget
      refine .pure ⟨?_, ?_⟩ (length_tagged 13 (label.write target))
      · simp [Instr.slots]
      · simpa [Instr.targets] using hTarget
    · apply (branchFields_normal.spend _).bind
      rintro ⟨cond, ifTrue, ifFalse⟩ ⟨hCond, hTargets⟩
      refine .pure ⟨?_, ?_⟩ (length_tagged 14 (branchFields.write (cond, ifTrue, ifFalse)))
      · simpa [Instr.slots] using hCond
      · simpa [Instr.targets] using hTargets
    · split
      · rename_i op hOp
        apply (slots3_normal.spend _).bind
        rintro ⟨result, left, right⟩ hSlots
        rw [← operatorTag_of_some hOp]
        refine .pure ⟨?_, ?_⟩ (length_tagged (operatorTag op) (slots3.write (result, left, right)))
        · simpa [Instr.slots] using hSlots
        · simp [Instr.targets]
      · exact .throw

/-- Entries of one operand shrink to the last of them. -/
theorem slotTable_normal : slotTable.Normal fun t =>
    t.entries.length < UInt64.size ∧
      ∀ e ∈ t.entries, e.1.val < UInt64.size ∧ e.2 < UInt64.size := by
  apply (Normal.list (operandId_normal.pair word_normal)).map
  rintro pairs ⟨hLength, hAll⟩
  have hFewer := SlotTable.length_ofList_le pairs
  refine ⟨⟨Nat.lt_of_le_of_lt hFewer hLength, fun e he => hAll e (SlotTable.mem_ofList he)⟩, ?_⟩
  have hCount := length_writeVarint_mono 9 hFewer
  have hEntries := SlotTable.length_flatMap_ofList_le (operandId.pair word).write pairs
  dsimp only [Format.list, word, varint]
  rw [List.length_append, List.length_append]
  exact Nat.add_le_add hCount hEntries

theorem constant_normal : constant.Normal Constant.Fits :=
  (operandId_normal.pair (word_normal.pair value_normal)).map
    fun _ h => ⟨⟨h.1, h.2.1, h.2.2⟩, Nat.le_refl _⟩

theorem codeBlock_normal : codeBlock.Normal CodeBlock.Fits :=
  (label_normal.pair (blockId_normal.pair ((Normal.list instr_normal).pair
    ((Normal.list (Normal.option halfWord_normal)).pair (slotTable_normal.pair
      ((Normal.list constant_normal).pair word_normal)))))).map
    fun _ ⟨hLabel, hOrigin, hInstrs, hLines, hSlots, hConstants, hScope⟩ =>
      ⟨⟨hLabel, hOrigin, hInstrs, hLines, hSlots, hConstants, hScope⟩, Nat.le_refl _⟩

theorem program_normal : program.Normal Program.Fits :=
  ((Normal.list codeBlock_normal).pair (label_normal.pair word_normal)).map
    fun _ ⟨hBlocks, hEntry, hSlots⟩ => ⟨⟨hBlocks, hEntry, hSlots⟩, Nat.le_refl _⟩

end Image

namespace Program

variable {bytes : List UInt8} {p : Program}

theorem exists_read_of_ofImage (h : ofImage bytes = .ok p) :
    ∃ rest, Image.program.read bytes = .ok (p, rest) := by
  rw [ofImage] at h
  cases hRead : Image.program.read bytes with
  | error e =>
    rw [hRead] at h
    cases h
  | ok found =>
    rw [hRead] at h
    cases h
    exact ⟨found.2, rfl⟩

theorem read_of_ofImage_error {e : Malformed} (h : ofImage bytes = .error e) :
    Image.program.read bytes = .error e := by
  rw [ofImage] at h
  cases hRead : Image.program.read bytes with
  | error e =>
    rw [hRead] at h
    cases h
    rfl
  | ok found =>
    rw [hRead] at h
    cases h

theorem ofImage_of_takes {taken : List UInt8} (h : Image.program.read.Takes taken p) :
    (∀ rest, ofImage (taken ++ rest) = .ok p) ∧
      ∀ front, front <+: taken → front ≠ taken → ofImage front = .error .endOfInput := by
  constructor
  · intro rest
    rw [ofImage, h.read_append rest]
    rfl
  · rintro front ⟨back, hBack⟩ hProper
    have hMissing : back ≠ [] := by
      rintro rfl
      exact hProper (by rw [← hBack, List.append_nil])
    rw [ofImage, h.read_short front back hBack.symm hMissing]
    rfl

/-- What is read from any bytes has an image that it is read from again. -/
theorem ofImage_again (h : ofImage bytes = .ok p) : ofImage p.toImage = .ok p := by
  obtain ⟨rest, hRead⟩ := exists_read_of_ofImage h
  obtain ⟨hFits, -⟩ := Image.program_normal.affords bytes p rest hRead
  have hAgain := (ofImage_of_takes (Image.program_exact p hFits)).1 []
  rwa [List.append_nil] at hAgain

/-- Bytes that are enough to decide on are decided on: more bytes behind them change nothing. What
is read from any bytes is read again from its own image, which is no longer than the part of the
bytes that was taken, the shortest part that is an image at all. -/
theorem ofImage_normalises (bytes : List UInt8) :
    (ofImage bytes ≠ .error .endOfInput → ∀ more, ofImage (bytes ++ more) = ofImage bytes) ∧
      ∀ p, ofImage bytes = .ok p → ofImage p.toImage = .ok p ∧
        ∃ taken rest, bytes = taken ++ rest ∧ Image.program.read bytes = .ok (p, rest) ∧
          ofImage taken = .ok p ∧
          (∀ front, front <+: taken → front ≠ taken → ofImage front = .error .endOfInput) ∧
          p.toImage.length ≤ taken.length := by
  have hSettles := Image.program_normal.settles
  constructor
  · intro hEnd more
    cases hImage : ofImage bytes with
    | error e =>
      have hReason : e ≠ .endOfInput := by
        rintro rfl
        exact hEnd hImage
      rw [ofImage, hSettles.refuses bytes e (read_of_ofImage_error hImage) hReason more]
      rfl
    | ok p =>
      obtain ⟨rest, hRead⟩ := exists_read_of_ofImage hImage
      obtain ⟨taken, rfl, hTaken⟩ := hSettles.takes bytes p rest hRead
      rw [List.append_assoc]
      exact (ofImage_of_takes hTaken).1 (rest ++ more)
  · intro p hImage
    obtain ⟨rest, hRead⟩ := exists_read_of_ofImage hImage
    obtain ⟨taken, hBytes, hTaken⟩ := hSettles.takes bytes p rest hRead
    obtain ⟨hFits, hLength⟩ := Image.program_normal.affords bytes p rest hRead
    have hAgain := (ofImage_of_takes (Image.program_exact p hFits)).1 []
    obtain ⟨hAlone, hShort⟩ := ofImage_of_takes hTaken
    have hTakenAlone := hAlone []
    rw [List.append_nil] at hAgain hTakenAlone
    dsimp only at hLength
    rw [hBytes, List.length_append, Nat.add_zero] at hLength
    exact ⟨hAgain, taken, rest, hBytes, hRead, hTakenAlone, hShort,
      Nat.le_of_add_le_add_right hLength⟩

/-- One block whose slot table was given out of order and with an operand twice. -/
def resettled : Program where
  blocks := [{
    label := ⟨0⟩
    origin := ⟨3⟩
    instrs := [.echo 1]
    lines := [none]
    slots := .ofList [(⟨2⟩, 0), (⟨5⟩, 9)]
    constants := [⟨⟨4⟩, 1, .integer (-3)⟩]
    scopeSize := 10 }]
  entry := ⟨0⟩
  slotCount := 10

/-- Overlong numbers, a slot table of three pairs for two operands, and two bytes too many. -/
def sloppyImage : List UInt8 :=
  [0x81, 0x00, 0, 0x83, 0x80, 0x00, 1, 0x80, 0x00, 1, 1, 0, 3, 5, 1, 2, 0x80, 0x00, 5, 9,
    1, 4, 1, 2, 0x85, 0x00, 10, 0, 0x8a, 0x00, 255, 255]

theorem ofImage_normalises_sloppyImage :
    ofImage sloppyImage = .ok resettled ∧
    (∀ more, ofImage (sloppyImage ++ more) = .ok resettled) ∧
    ofImage resettled.toImage = .ok resettled ∧
    ∃ taken rest, sloppyImage = taken ++ rest ∧
      Image.program.read sloppyImage = .ok (resettled, rest) ∧ ofImage taken = .ok resettled ∧
      (∀ front, front <+: taken → front ≠ taken → ofImage front = .error .endOfInput) ∧
      resettled.toImage.length ≤ taken.length := by
  have hSome : (ofImage sloppyImage).toOption = some resettled := by decide +kernel
  have hImage : ofImage sloppyImage = .ok resettled := by
    cases hResult : ofImage sloppyImage with
    | error e =>
      rw [hResult] at hSome
      cases hSome
    | ok p =>
      rw [hResult] at hSome
      exact congrArg Except.ok (Option.some.inj hSome)
  obtain ⟨hMore, hAgain⟩ := ofImage_normalises sloppyImage
  rw [hImage] at hMore
  exact ⟨hImage, hMore (by rintro ⟨⟩), hAgain resettled hImage⟩

end Program

end BlockMachine
