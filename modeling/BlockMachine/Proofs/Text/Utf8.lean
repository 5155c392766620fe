import BlockMachine.Text.Utf8

/-!
# UTF-8, written and read
The reader takes the bytes of a character for that character, whatever follows them, and nothing
else: a character that it comes up with has been written there, unless it is the replacement for
bytes that write none.
-/

namespace BlockMachine.Utf8
set_option autoImplicit false

/-- The bytes that complete a begun sequence to a character. -/
inductive Begun.Completes : Begun → List UInt8 → Char → Prop
  | last {bits : Nat} {low high b : UInt8} (hLow : low ≤ b) (hHigh : b ≤ high) :
    Completes ⟨bits, low, high, 0⟩ [b] (Char.ofNat (bits * 64 + b.toNat % 64))
  | more {bits more : Nat} {low high b : UInt8} {bs : List UInt8} {c : Char} (hLow : low ≤ b)
    (hHigh : b ≤ high) (hRest : Completes ⟨bits * 64 + b.toNat % 64, 0x80, 0xbf, more⟩ bs c) :
    Completes ⟨bits, low, high, more + 1⟩ (b :: bs) c

variable {p : Begun} {b : UInt8} {bs rest : List UInt8} {c : Char} {cs : List Char}

theorem decodeFrom_of_completes (h : p.Completes bs c) (rest : List UInt8) :
    decodeFrom (some p) (bs ++ rest) = c :: decodeFrom none rest := by
  induction h with
  | last hLow hHigh =>
    rw [List.singleton_append, decodeFrom, step, if_pos ⟨hLow, hHigh⟩]
    rfl
  | more hLow hHigh hRest ih =>
    rw [List.cons_append, decodeFrom, step, if_pos ⟨hLow, hHigh⟩]
    exact ih

theorem exists_completes (h : decodeFrom (some p) bs = c :: cs) (hc : c ≠ replacement) :
    ∃ front rest, bs = front ++ rest ∧ p.Completes front c ∧ cs = decodeFrom none rest := by
  induction bs generalizing p with
  | nil => exact absurd (List.cons.inj h).1.symm hc
  | cons b bs ih =>
    obtain ⟨bits, low, high, more⟩ := p
    rw [decodeFrom, step] at h
    split at h
    · rename_i hRange
      cases more with
      | zero =>
        obtain ⟨rfl, rfl⟩ := List.cons.inj h
        exact ⟨[b], bs, rfl, .last hRange.1 hRange.2, rfl⟩
      | succ more =>
        obtain ⟨front, rest, rfl, hFront, hRest⟩ := ih h
        exact ⟨b :: front, rest, rfl, .more hRange.1 hRange.2 hFront, hRest⟩
    · exact absurd (List.cons.inj h).1.symm hc

section Start

variable (b)

theorem start_of_lt (h : b.toNat < 0x80) : start b = ([Char.ofNat b.toNat], none) := by
  rw [start, if_pos h]

theorem start_two (hLow : 0xc2 ≤ b.toNat) (hHigh : b.toNat < 0xe0) :
    start b = ([], some ⟨b.toNat % 32, 0x80, 0xbf, 0⟩) := by
  rw [start, if_neg (by omega), if_neg (by omega), if_pos (by omega)]

theorem start_three (hLow : 0xe0 ≤ b.toNat) (hHigh : b.toNat < 0xf0) :
    start b = ([], some ⟨b.toNat % 16, if b.toNat = 0xe0 then 0xa0 else 0x80,
      if b.toNat = 0xed then 0x9f else 0xbf, 1⟩) := by
  rw [start, if_neg (by omega), if_neg (by omega), if_neg (by omega)]
  by_cases hFirst : b.toNat = 0xe0
  · rw [if_pos hFirst, if_pos hFirst, if_neg (by omega)]
  · by_cases hSurrogate : b.toNat = 0xed
    · rw [if_neg hFirst, if_pos hSurrogate, if_neg hFirst, if_pos hSurrogate]
    · rw [if_neg hFirst, if_neg hSurrogate, if_pos hHigh, if_neg hFirst, if_neg hSurrogate]

theorem start_four (hLow : 0xf0 ≤ b.toNat) (hHigh : b.toNat < 0xf5) :
    start b = ([], some ⟨b.toNat % 8, if b.toNat = 0xf0 then 0x90 else 0x80,
      if b.toNat = 0xf4 then 0x8f else 0xbf, 2⟩) := by
  rw [start, if_neg (by omega), if_neg (by omega), if_neg (by omega), if_neg (by omega),
    if_neg (by omega), if_neg (by omega)]
  by_cases hFirst : b.toNat = 0xf0
  · rw [if_pos hFirst, if_pos hFirst, if_neg (by omega)]
  · by_cases hLast : b.toNat = 0xf4
    · rw [if_neg hFirst, if_neg (by omega), if_pos hLast, if_neg hFirst, if_pos hLast]
    · rw [if_neg hFirst, if_pos (by omega), if_neg hFirst, if_neg hLast]

theorem start_stray (h : (0x80 ≤ b.toNat ∧ b.toNat < 0xc2) ∨ 0xf5 ≤ b.toNat) :
    start b = ([replacement], none) := by
  rw [start, if_neg (by omega)]
  by_cases hLow : b.toNat < 0xc2
  · rw [if_pos hLow]
  · rw [if_neg hLow, if_neg (by omega), if_neg (by omega), if_neg (by omega), if_neg (by omega),
      if_neg (by omega), if_neg (by omega), if_neg (by omega)]

end Start

section Encode

theorem utf8EncodeChar_of_lt (h : c.toNat < 0x80) :
    String.utf8EncodeChar c = [c.toNat.toUInt8] := by
  have hVal : c.val.toNat ≤ 127 := Nat.le_of_lt_succ h
  simp only [String.utf8EncodeChar, hVal, if_true]
  rfl

theorem utf8EncodeChar_two (hLow : 0x80 ≤ c.toNat) (hHigh : c.toNat < 0x800) :
    String.utf8EncodeChar c =
      [UInt8.ofNat (c.toNat / 64 % 32 + 192), UInt8.ofNat (c.toNat % 64 + 128)] := by
  have hOne : ¬ c.val.toNat ≤ 127 := Nat.not_le.mpr hLow
  have hTwo : c.val.toNat ≤ 2047 := Nat.le_of_lt_succ hHigh
  simp only [String.utf8EncodeChar, hOne, hTwo, if_true, if_false]
  rfl

theorem utf8EncodeChar_three (hLow : 0x800 ≤ c.toNat) (hHigh : c.toNat < 0x10000) :
    String.utf8EncodeChar c = [UInt8.ofNat (c.toNat / 4096 % 16 + 224),
      UInt8.ofNat (c.toNat / 64 % 64 + 128), UInt8.ofNat (c.toNat % 64 + 128)] := by
  have hOne : ¬ c.val.toNat ≤ 127 := Nat.not_le.mpr (Nat.lt_of_lt_of_le (by decide) hLow)
  have hTwo : ¬ c.val.toNat ≤ 2047 := Nat.not_le.mpr hLow
  have hThree : c.val.toNat ≤ 65535 := Nat.le_of_lt_succ hHigh
  simp only [String.utf8EncodeChar, hOne, hTwo, hThree, if_true, if_false]
  rfl

theorem utf8EncodeChar_four (h : 0x10000 ≤ c.toNat) :
    String.utf8EncodeChar c = [UInt8.ofNat (c.toNat / 262144 % 8 + 240),
      UInt8.ofNat (c.toNat / 4096 % 64 + 128), UInt8.ofNat (c.toNat / 64 % 64 + 128),
      UInt8.ofNat (c.toNat % 64 + 128)] := by
  have hOne : ¬ c.val.toNat ≤ 127 := Nat.not_le.mpr (Nat.lt_of_lt_of_le (by decide) h)
  have hTwo : ¬ c.val.toNat ≤ 2047 := Nat.not_le.mpr (Nat.lt_of_lt_of_le (by decide) h)
  have hThree : ¬ c.val.toNat ≤ 65535 := Nat.not_le.mpr h
  simp only [String.utf8EncodeChar, hOne, hTwo, hThree, if_false]
  rfl

end Encode

theorem toNat_ofNat {n : Nat} (h : n < 0xd800 ∨ 0xdfff < n ∧ n < 0x110000) :
    (Char.ofNat n).toNat = n := by
  rw [Char.ofNat, dif_pos h]
  rfl

theorem toNat_byte {n : Nat} (h : n < 256) : (UInt8.ofNat n).toNat = n := by
  rw [UInt8.toNat_ofNat', Nat.mod_eq_of_lt h]

theorem ofNat_eq {n : Nat} (h : n = b.toNat) : UInt8.ofNat n = b := by
  rw [h, UInt8.ofNat_toNat]

/-! A first byte says how many bytes follow, and their ranges keep the number in its class. -/

theorem spells_two (hLead : 0xc2 ≤ b.toNat ∧ b.toNat < 0xe0) (hStart : start b = ([], some p))
    (h : p.Completes bs c) : String.utf8EncodeChar c = b :: bs := by
  rw [start_two b hLead.1 hLead.2] at hStart
  cases hStart
  cases h with
  | @last _ _ _ b₁ hLow hHigh =>
    have hLow : 0x80 ≤ b₁.toNat := UInt8.le_iff_toNat_le.mp hLow
    have hHigh : b₁.toNat ≤ 0xbf := UInt8.le_iff_toNat_le.mp hHigh
    have hNat := toNat_ofNat (n := b.toNat % 32 * 64 + b₁.toNat % 64) (by omega)
    rw [utf8EncodeChar_two (by omega) (by omega), hNat, ofNat_eq (b := b) (by omega),
      ofNat_eq (b := b₁) (by omega)]

theorem spells_three (hLead : 0xe0 ≤ b.toNat ∧ b.toNat < 0xf0) (hStart : start b = ([], some p))
    (h : p.Completes bs c) : String.utf8EncodeChar c = b :: bs := by
  rw [start_three b hLead.1 hLead.2] at hStart
  cases hStart
  cases h with
  | @more _ _ _ _ b₁ _ _ hLow hHigh h =>
    cases h with
    | @last _ _ _ b₂ hLow₂ hHigh₂ =>
      rw [UInt8.le_iff_toNat_le] at hLow hHigh
      have hLow₂ : 0x80 ≤ b₂.toNat := UInt8.le_iff_toNat_le.mp hLow₂
      have hHigh₂ : b₂.toNat ≤ 0xbf := UInt8.le_iff_toNat_le.mp hHigh₂
      have hFirst : 0x80 ≤ b₁.toNat ∧ (b.toNat = 0xe0 → 0xa0 ≤ b₁.toNat) := by
        split at hLow <;> simp at hLow <;> omega
      have hLast : b₁.toNat ≤ 0xbf ∧ (b.toNat = 0xed → b₁.toNat ≤ 0x9f) := by
        split at hHigh <;> simp at hHigh <;> omega
      have hNat := toNat_ofNat
        (n := (b.toNat % 16 * 64 + b₁.toNat % 64) * 64 + b₂.toNat % 64) (by omega)
      rw [utf8EncodeChar_three (by omega) (by omega), hNat, ofNat_eq (b := b) (by omega),
        ofNat_eq (b := b₁) (by omega), ofNat_eq (b := b₂) (by omega)]

theorem spells_four (hLead : 0xf0 ≤ b.toNat ∧ b.toNat < 0xf5) (hStart : start b = ([], some p))
    (h : p.Completes bs c) : String.utf8EncodeChar c = b :: bs := by
  rw [start_four b hLead.1 hLead.2] at hStart
  cases hStart
  cases h with
  | @more _ _ _ _ b₁ _ _ hLow hHigh h =>
    cases h with
    | @more _ _ _ _ b₂ _ _ hLow₂ hHigh₂ h =>
      cases h with
      | @last _ _ _ b₃ hLow₃ hHigh₃ =>
        rw [UInt8.le_iff_toNat_le] at hLow hHigh
        have hLow₂ : 0x80 ≤ b₂.toNat := UInt8.le_iff_toNat_le.mp hLow₂
        have hHigh₂ : b₂.toNat ≤ 0xbf := UInt8.le_iff_toNat_le.mp hHigh₂
        have hLow₃ : 0x80 ≤ b₃.toNat := UInt8.le_iff_toNat_le.mp hLow₃
        have hHigh₃ : b₃.toNat ≤ 0xbf := UInt8.le_iff_toNat_le.mp hHigh₃
        have hFirst : 0x80 ≤ b₁.toNat ∧ (b.toNat = 0xf0 → 0x90 ≤ b₁.toNat) := by
          split at hLow <;> simp at hLow <;> omega
        have hLast : b₁.toNat ≤ 0xbf ∧ (b.toNat = 0xf4 → b₁.toNat ≤ 0x8f) := by
          split at hHigh <;> simp at hHigh <;> omega
        have hNat := toNat_ofNat (n := ((b.toNat % 8 * 64 + b₁.toNat % 64) * 64 +
          b₂.toNat % 64) * 64 + b₃.toNat % 64) (by omega)
        rw [utf8EncodeChar_four (by omega), hNat, ofNat_eq (b := b) (by omega),
          ofNat_eq (b := b₁) (by omega), ofNat_eq (b := b₂) (by omega), ofNat_eq (b := b₃) (by omega)]

/-- A byte is a character, begins one, or belongs to none. -/
theorem start_cases (b : UInt8) :
    b.toNat < 0x80 ∨ (0xc2 ≤ b.toNat ∧ b.toNat < 0xe0) ∨ (0xe0 ≤ b.toNat ∧ b.toNat < 0xf0) ∨
      (0xf0 ≤ b.toNat ∧ b.toNat < 0xf5) ∨ start b = ([replacement], none) := by
  by_cases hStray : (0x80 ≤ b.toNat ∧ b.toNat < 0xc2) ∨ 0xf5 ≤ b.toNat
  · exact .inr (.inr (.inr (.inr (start_stray b hStray))))
  · omega

/-- The first character read is what the first bytes spell, if it is not the replacement. -/
theorem exists_of_decode_cons (h : decodeFrom none bs = c :: cs) (hc : c ≠ replacement) :
    ∃ rest, bs = String.utf8EncodeChar c ++ rest ∧ cs = decodeFrom none rest := by
  cases bs with
  | nil => cases h
  | cons b bs =>
    have hBegun {q : Begun} (hStart : start b = ([], some q))
        (hSpells : ∀ front, q.Completes front c → String.utf8EncodeChar c = b :: front) :
        ∃ rest, b :: bs = String.utf8EncodeChar c ++ rest ∧ cs = decodeFrom none rest := by
      rw [decodeFrom, step, hStart] at h
      obtain ⟨front, rest, rfl, hFront, hRest⟩ := exists_completes h hc
      exact ⟨rest, by rw [hSpells front hFront]; rfl, hRest⟩
    rcases start_cases b with hLead | hLead | hLead | hLead | hStart
    · rw [decodeFrom, step, start_of_lt b hLead] at h
      obtain ⟨rfl, rfl⟩ := List.cons.inj h
      have hNat := toNat_ofNat (n := b.toNat) (by omega)
      refine ⟨bs, ?_, rfl⟩
      rw [utf8EncodeChar_of_lt (by omega), hNat]
      exact congrArg (· :: bs) (ofNat_eq rfl).symm
    · exact hBegun (start_two b hLead.1 hLead.2) fun _ =>
        spells_two hLead (start_two b hLead.1 hLead.2)
    · exact hBegun (start_three b hLead.1 hLead.2) fun _ =>
        spells_three hLead (start_three b hLead.1 hLead.2)
    · exact hBegun (start_four b hLead.1 hLead.2) fun _ =>
        spells_four hLead (start_four b hLead.1 hLead.2)
    · rw [decodeFrom, step, hStart] at h
      exact absurd (List.cons.inj h).1.symm hc

theorem tail_byte (n : Nat) : (0x80 : UInt8) ≤ UInt8.ofNat (n % 64 + 128) ∧
    UInt8.ofNat (n % 64 + 128) ≤ (0xbf : UInt8) ∧
    (UInt8.ofNat (n % 64 + 128)).toNat = n % 64 + 128 := by
  have hNat := toNat_byte (n := n % 64 + 128) (by omega)
  have hMin : (0x80 : UInt8).toNat = 0x80 := rfl
  have hMax : (0xbf : UInt8).toNat = 0xbf := rfl
  rw [UInt8.le_iff_toNat_le, UInt8.le_iff_toNat_le, hNat, hMin, hMax]
  omega

theorem Begun.Completes.of_toNat {n : Nat} (h : p.Completes bs (Char.ofNat n)) (hn : n = c.toNat) :
    p.Completes bs c := by
  rw [hn, Char.ofNat_toNat] at h
  exact h

theorem begins_two (hLow : 0x80 ≤ c.toNat) (hHigh : c.toNat < 0x800) :
    ∃ b bs p, String.utf8EncodeChar c = b :: bs ∧ start b = ([], some p) ∧ p.Completes bs c := by
  have hLead := toNat_byte (n := c.toNat / 64 % 32 + 192) (by omega)
  refine ⟨_, _, _, utf8EncodeChar_two hLow hHigh, start_two _ (by omega) (by omega), ?_⟩
  obtain ⟨hMin, hMax, hBits⟩ := tail_byte c.toNat
  exact (Begun.Completes.last hMin hMax).of_toNat (by omega)

theorem begins_three (hLow : 0x800 ≤ c.toNat) (hHigh : c.toNat < 0x10000) :
    ∃ b bs p, String.utf8EncodeChar c = b :: bs ∧ start b = ([], some p) ∧ p.Completes bs c := by
  have hValid : c.toNat < 0xd800 ∨ 0xdfff < c.toNat ∧ c.toNat < 0x110000 := c.valid
  have hLead := toNat_byte (n := c.toNat / 4096 % 16 + 224) (by omega)
  refine ⟨_, _, _, utf8EncodeChar_three hLow hHigh, start_three _ (by omega) (by omega), ?_⟩
  obtain ⟨hMin₁, hMax₁, hBits₁⟩ := tail_byte (c.toNat / 64)
  obtain ⟨hMin₂, hMax₂, hBits₂⟩ := tail_byte c.toNat
  refine (Begun.Completes.more ?_ ?_ (.last hMin₂ hMax₂)).of_toNat (by omega)
  · split
    · rw [UInt8.le_iff_toNat_le, hBits₁]
      simp
      omega
    · exact hMin₁
  · split
    · rw [UInt8.le_iff_toNat_le, hBits₁]
      simp
      omega
    · exact hMax₁

theorem begins_four (h : 0x10000 ≤ c.toNat) :
    ∃ b bs p, String.utf8EncodeChar c = b :: bs ∧ start b = ([], some p) ∧ p.Completes bs c := by
  have hValid : c.toNat < 0xd800 ∨ 0xdfff < c.toNat ∧ c.toNat < 0x110000 := c.valid
  have hLead := toNat_byte (n := c.toNat / 262144 % 8 + 240) (by omega)
  refine ⟨_, _, _, utf8EncodeChar_four h, start_four _ (by omega) (by omega), ?_⟩
  obtain ⟨hMin₁, hMax₁, hBits₁⟩ := tail_byte (c.toNat / 4096)
  obtain ⟨hMin₂, hMax₂, hBits₂⟩ := tail_byte (c.toNat / 64)
  obtain ⟨hMin₃, hMax₃, hBits₃⟩ := tail_byte c.toNat
  refine (Begun.Completes.more ?_ ?_ (.more hMin₂ hMax₂ (.last hMin₃ hMax₃))).of_toNat (by omega)
  · split
    · rw [UInt8.le_iff_toNat_le, hBits₁]
      simp
      omega
    · exact hMin₁
  · split
    · rw [UInt8.le_iff_toNat_le, hBits₁]
      simp
      omega
    · exact hMax₁

/-- A character outside ASCII is spelled by a byte that begins a sequence and the bytes that
complete it. -/
theorem exists_begun (h : 0x80 ≤ c.toNat) :
    ∃ b bs p, String.utf8EncodeChar c = b :: bs ∧ start b = ([], some p) ∧ p.Completes bs c := by
  by_cases hTwo : c.toNat < 0x800
  · exact begins_two h hTwo
  · by_cases hThree : c.toNat < 0x10000
    · exact begins_three (by omega) hThree
    · exact begins_four (by omega)

theorem decode_encodeChar (c : Char) (rest : List UInt8) :
    decodeFrom none (String.utf8EncodeChar c ++ rest) = c :: decodeFrom none rest := by
  by_cases h : c.toNat < 0x80
  · have hNat := toNat_byte (n := c.toNat) (by omega)
    rw [utf8EncodeChar_of_lt h, List.singleton_append, decodeFrom, step,
      start_of_lt _ (by rw [Nat.toUInt8, hNat]; exact h), Nat.toUInt8, hNat, Char.ofNat_toNat]
    rfl
  · obtain ⟨b, bs, p, hBytes, hStart, hRest⟩ := exists_begun (Nat.le_of_not_lt h)
    rw [hBytes, List.cons_append, decodeFrom, step, hStart]
    exact decodeFrom_of_completes hRest rest

/-- Written characters are read as they were, and what follows them on its own. -/
theorem decodeChars_append (cs : List Char) (rest : List UInt8) :
    decodeChars (encodeChars cs ++ rest) = cs ++ decodeChars rest := by
  induction cs with
  | nil => rfl
  | cons c cs ih =>
    have hCons : encodeChars (c :: cs) ++ rest =
        String.utf8EncodeChar c ++ (encodeChars cs ++ rest) := List.append_assoc ..
    rw [hCons, decodeChars, decode_encodeChar]
    exact congrArg (c :: ·) ih

/-- Characters that were read, none of them the replacement, are written where they were read. -/
theorem exists_of_decodeChars_append {ds : List Char} (h : decodeChars bs = cs ++ ds)
    (hcs : ∀ c ∈ cs, c ≠ replacement) :
    ∃ rest, bs = encodeChars cs ++ rest ∧ ds = decodeChars rest := by
  induction cs generalizing bs with
  | nil => exact ⟨bs, rfl, h.symm⟩
  | cons c cs ih =>
    obtain ⟨rest, rfl, hRest⟩ := exists_of_decode_cons h (hcs c List.mem_cons_self)
    obtain ⟨rest, rfl, hds⟩ := ih hRest.symm fun d hd => hcs d (List.mem_cons_of_mem c hd)
    exact ⟨rest, (List.append_assoc ..).symm, hds⟩

/-- The well-formed bytes are those of some text. -/
theorem wellFormed_iff : WellFormed bs ↔ ∃ s, encode s = bs := by
  constructor
  · intro h
    exact ⟨decode bs, h⟩
  · rintro ⟨s, rfl⟩
    have hAll := decodeChars_append s.toList []
    rw [List.append_nil] at hAll
    rw [WellFormed, decode, encode, encode, hAll]
    simp [decodeChars, decodeFrom]

end BlockMachine.Utf8
