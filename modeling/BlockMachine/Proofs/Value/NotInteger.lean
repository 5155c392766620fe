import BlockMachine.Proofs.Text.Utf8
import BlockMachine.Proofs.Value.Spelling

/-!
# Texts refused as integers
A refused text is called out of range when its digits are, and also when blanks that are not space
bytes hide its digits from the reader. Every other refused text is called non-numeric.
-/

namespace BlockMachine
set_option autoImplicit false

namespace Numeral

variable {s : List UInt8}

/-- A blank is a control character, the space, or far from ASCII. -/
theorem toNat_of_isBlank {c : Char} (h : isBlank c) :
    (9 ≤ c.toNat ∧ c.toNat ≤ 13) ∨ c.toNat = 32 ∨ (0x85 ≤ c.toNat ∧ c.toNat ≤ 0x3000) := by
  simp only [isBlank, Blank.ranges, List.any_cons, List.any_nil, Bool.or_false, Bool.or_eq_true,
    Bool.and_eq_true, decide_eq_true_iff] at h
  omega

theorem not_isBlank_of_isDigit {c : Char} (h : c.isDigit = true) : ¬ isBlank c := by
  intro hBlank
  have hDigit : 48 ≤ c.toNat ∧ c.toNat ≤ 57 := Char.isDigit_iff_toNat.mp h
  have := toNat_of_isBlank hBlank
  omega

def Sign.chars : Sign → List Char
  | none => []
  | plus => ['+']
  | minus => ['-']

theorem encodeChars_chars (g : Sign) : Utf8.encodeChars g.chars = g.bytes := by
  cases g <;> decide

theorem startsNumeric_iff {cs : List Char} : Coercion.startsNumeric cs = true ↔
    ∃ (blanks : List Char) (g : Sign) (d : Char) (rest : List Char),
      cs = blanks ++ (g.chars ++ d :: rest) ∧ (∀ c ∈ blanks, isBlank c) ∧ d.isDigit = true := by
  constructor
  · intro h
    have hCut {t : List Char} (ht : cs.dropWhile isBlank = t) : cs = cs.takeWhile isBlank ++ t := by
      rw [← ht, List.takeWhile_append_dropWhile]
    have hBlanks : ∀ c ∈ cs.takeWhile isBlank, isBlank c := fun c hc => List.mem_takeWhile_imp hc
    rw [Coercion.startsNumeric] at h
    split at h
    · rename_i d rest hBody
      exact ⟨_, .plus, d, rest, hCut hBody, hBlanks, h⟩
    · rename_i d rest hBody
      exact ⟨_, .minus, d, rest, hCut hBody, hBlanks, h⟩
    · rename_i d rest _ _ hBody
      exact ⟨_, .none, d, rest, hCut hBody, hBlanks, h⟩
    · cases h
  · rintro ⟨blanks, g, d, rest, rfl, hBlanks, hDigit⟩
    have hStop : ∀ c ∈ (g.chars ++ d :: rest).head?, ¬ isBlank c := by
      cases g with
      | none =>
        rintro _ ⟨⟩
        exact not_isBlank_of_isDigit hDigit
      | plus =>
        rintro _ ⟨⟩
        decide
      | minus =>
        rintro _ ⟨⟩
        decide
    rw [Coercion.startsNumeric, Text.dropWhile_run hBlanks hStop]
    cases g with
    | none =>
      rw [Sign.chars, List.nil_append]
      split
      · rename_i h
        cases h
        exact absurd hDigit (by decide)
      · rename_i h
        cases h
        exact absurd hDigit (by decide)
      · rename_i h
        cases h
        exact hDigit
      · rename_i h
        cases h
    | plus => exact hDigit
    | minus => exact hDigit

theorem encodeChars_append (cs ds : List Char) :
    Utf8.encodeChars (cs ++ ds) = Utf8.encodeChars cs ++ Utf8.encodeChars ds := List.flatMap_append

theorem exists_digit {b : UInt8} (h : Decimal.isDigitByte b) :
    ∃ d : Char, d.isDigit = true ∧ Utf8.encodeChars [d] = [b] := by
  rw [Decimal.isDigitByte, Bool.and_eq_true, decide_eq_true_iff, decide_eq_true_iff,
    UInt8.le_iff_toNat_le, UInt8.le_iff_toNat_le] at h
  have hBounds : 48 ≤ b.toNat ∧ b.toNat ≤ 57 := h
  have hNat := Utf8.toNat_ofNat (n := b.toNat) (by omega)
  have hDigit : (Char.ofNat b.toNat).isDigit = true := by
    rw [Char.isDigit_iff_toNat, hNat]
    exact hBounds
  refine ⟨Char.ofNat b.toNat, hDigit, ?_⟩
  rw [Decimal.encodeChars_of_isDigit (by simpa using hDigit), List.map_singleton, hNat]
  exact congrArg (fun x => [x]) (Utf8.ofNat_eq rfl)

/-- What the second look at a refused text finds, in bytes. -/
theorem startsNumeric_decode_iff : Coercion.startsNumeric (Utf8.decodeChars s) = true ↔
    ∃ (blanks : List Char) (g : Sign) (b : UInt8) (t : List UInt8),
      s = Utf8.encodeChars blanks ++ (g.bytes ++ b :: t) ∧ (∀ c ∈ blanks, isBlank c) ∧
        Decimal.isDigitByte b := by
  rw [startsNumeric_iff]
  constructor
  · rintro ⟨blanks, g, d, rest, hRead, hBlanks, hDigit⟩
    have hCut : Utf8.decodeChars s = (blanks ++ (g.chars ++ [d])) ++ rest := by
      rw [hRead, List.append_assoc, List.append_assoc]
      rfl
    have hOwn : ∀ c ∈ blanks ++ (g.chars ++ [d]), c ≠ Utf8.replacement := by
      rintro c hc rfl
      rcases List.mem_append.mp hc with hc | hc
      · exact absurd (hBlanks _ hc) (by decide)
      · rcases List.mem_append.mp hc with hc | hc
        · cases g <;> simp [Sign.chars, Utf8.replacement] at hc
        · cases List.mem_singleton.mp hc
          exact absurd hDigit (by decide)
    obtain ⟨t, hText, -⟩ := Utf8.exists_of_decodeChars_append hCut hOwn
    obtain ⟨hByte, -, hDigitByte⟩ := Decimal.utf8EncodeChar_of_isDigit hDigit
    have hLast : Utf8.encodeChars [d] = [d.toNat.toUInt8] := by
      rw [Utf8.encodeChars, List.flatMap_singleton, hByte]
    refine ⟨blanks, g, d.toNat.toUInt8, t, ?_, hBlanks, hDigitByte⟩
    rw [hText, encodeChars_append, encodeChars_append, encodeChars_chars, hLast, List.append_assoc,
      List.append_assoc]
    rfl
  · rintro ⟨blanks, g, b, t, hText, hBlanks, hDigit⟩
    obtain ⟨d, hd, hLast⟩ := exists_digit hDigit
    refine ⟨blanks, g, d, Utf8.decodeChars t, ?_, hBlanks, hd⟩
    have hCut : s = Utf8.encodeChars (blanks ++ (g.chars ++ [d])) ++ t := by
      rw [hText, encodeChars_append, encodeChars_append, encodeChars_chars, hLast,
        List.append_assoc, List.append_assoc]
      rfl
    rw [hCut, Utf8.decodeChars_append, List.append_assoc, List.append_assoc]
    rfl

theorem refuse_eq : Coercion.refuse s = if Coercion.startsNumeric (Utf8.decodeChars s) then
    .outOfRange (Utf8.decode s) else .nonNumeric (Utf8.decode s) := by
  rw [Coercion.refuse]
  by_cases h : Coercion.startsNumeric (Utf8.decodeChars s) = true
  · obtain ⟨blanks, g, b, t, hText, -, hDigit⟩ := startsNumeric_decode_iff.mp h
    have hAny : s.any Decimal.isDigitByte = true :=
      List.any_eq_true.mpr ⟨b, by rw [hText]; simp, hDigit⟩
    rw [hAny, Bool.true_and]
  · rw [Bool.not_eq_true] at h
    rw [h, Bool.and_false]

theorem startsNumeric_of_spelling (p : Spelling s) :
    Coercion.startsNumeric (Utf8.decodeChars s) = true := by
  have hBlanks (bs : List UInt8) (h : ∀ b ∈ bs, isSpaceByte b) :
      ∃ blanks, Utf8.encodeChars blanks = bs ∧ ∀ c ∈ blanks, isBlank c := by
    induction bs with
    | nil => exact ⟨[], rfl, List.forall_mem_nil _⟩
    | cons b bs ih =>
      obtain ⟨blanks, rfl, hBlanks⟩ := ih fun x hx => h x (List.mem_cons_of_mem b hx)
      have hSpace := isSpaceByte_iff.mp (h b List.mem_cons_self)
      refine ⟨Char.ofNat b.toNat :: blanks, ?_, List.forall_mem_cons.mpr ⟨?_, hBlanks⟩⟩
      · rcases hSpace with rfl | rfl | rfl | rfl | rfl <;> rfl
      · rcases hSpace with rfl | rfl | rfl | rfl | rfl <;> decide
  obtain ⟨blanks, hSpaces, hAll⟩ := hBlanks p.spaces p.spaces_space
  obtain ⟨b, bs, hDigits, hb⟩ := p.exists_digits
  refine startsNumeric_decode_iff.mpr ⟨blanks, p.sign, b, bs ++ p.rest, ?_, hAll, hb⟩
  have hText := p.text_eq
  rw [hDigits] at hText
  rw [hSpaces]
  exact hText

theorem startsNumeric_of_veiled (v : Veiled s) :
    Coercion.startsNumeric (Utf8.decodeChars s) = true :=
  startsNumeric_decode_iff.mpr
    ⟨v.blanks, v.sign, v.digit, v.rest, v.text_eq, v.blanks_blank, v.digit_digit⟩

/-- A text that looks like a number is one that the grammar cuts, or its digits are veiled. -/
theorem spelling_or_veiled (h : Coercion.startsNumeric (Utf8.decodeChars s) = true) :
    Nonempty (Spelling s) ∨ Nonempty (Veiled s) := by
  obtain ⟨blanks, g, b, t, hText, hBlanks, hDigit⟩ := startsNumeric_decode_iff.mp h
  by_cases hOther : ∃ c ∈ blanks, ¬ ∀ x ∈ String.utf8EncodeChar c, isSpaceByte x
  · exact .inr ⟨⟨blanks, g, b, t, hText, hBlanks, hOther, hDigit⟩⟩
  · left
    refine exists_spelling hText (fun x hx => ?_) ?_
    · obtain ⟨c, hc, hx⟩ := List.mem_flatMap.mp hx
      exact not_not.mp (fun hNot => hOther ⟨c, hc, fun hAll => hNot (hAll x hx)⟩)
    · rw [List.takeWhile_cons_of_pos hDigit]
      exact List.cons_ne_nil _ _

/-- The first byte of a blank that is no space byte stands nowhere in front of a numeral. -/
theorem exists_foreign {c : Char} (hBlank : isBlank c)
    (hOther : ¬ ∀ x ∈ String.utf8EncodeChar c, isSpaceByte x) :
    ∃ b bs, String.utf8EncodeChar c = b :: bs ∧ (b = 11 ∨ 0x80 ≤ b.toNat) := by
  by_cases hAscii : c.toNat < 0x80
  · have hBytes := Utf8.utf8EncodeChar_of_lt hAscii
    refine ⟨c.toNat.toUInt8, [], hBytes, .inl ?_⟩
    rw [hBytes] at hOther
    have hNotSpace : ¬ isSpaceByte c.toNat.toUInt8 := fun h => hOther (by simpa using h)
    rw [isSpaceByte_iff, not_or, not_or, not_or, not_or] at hNotSpace
    have hByte (n : Nat) (h : c.toNat = n) : c.toNat.toUInt8 = UInt8.ofNat n := congrArg _ h
    obtain ⟨hSpace, hTab, hLine, hFeed, hReturn⟩ := hNotSpace
    have hEleven : c.toNat = 11 := by
      rcases toNat_of_isBlank hBlank with h | h | h
      · have hNine : c.toNat ≠ 9 := fun h => hTab (hByte 9 h)
        have hTen : c.toNat ≠ 10 := fun h => hLine (hByte 10 h)
        have hTwelve : c.toNat ≠ 12 := fun h => hFeed (hByte 12 h)
        have hThirteen : c.toNat ≠ 13 := fun h => hReturn (hByte 13 h)
        omega
      · exact absurd (hByte 32 h) hSpace
      · omega
    exact hByte 11 hEleven
  · obtain ⟨b, bs, q, hBytes, hStart, -⟩ := Utf8.exists_begun (Nat.le_of_not_lt hAscii)
    refine ⟨b, bs, hBytes, .inr (Nat.le_of_not_lt fun hLt => ?_)⟩
    rw [Utf8.start_of_lt b hLt] at hStart
    cases hStart

theorem dropWhile_blanks {blanks : List Char} {t : List UInt8} (hBlanks : ∀ c ∈ blanks, isBlank c)
    (hOther : ∃ c ∈ blanks, ¬ ∀ x ∈ String.utf8EncodeChar c, isSpaceByte x) :
    ∃ b bs, (Utf8.encodeChars blanks ++ t).dropWhile isSpaceByte = b :: bs ∧
      (b = 11 ∨ 0x80 ≤ b.toNat) := by
  induction blanks with
  | nil =>
    obtain ⟨c, hc, -⟩ := hOther
    cases hc
  | cons c cs ih =>
    have hBytes : Utf8.encodeChars (c :: cs) ++ t =
        String.utf8EncodeChar c ++ (Utf8.encodeChars cs ++ t) := List.append_assoc ..
    rw [hBytes]
    by_cases hc : ∀ x ∈ String.utf8EncodeChar c, isSpaceByte x
    · rw [List.dropWhile_append_of_pos hc]
      obtain ⟨d, hd, hNot⟩ := hOther
      refine ih (fun e he => hBlanks e (List.mem_cons_of_mem c he)) ⟨d, ?_, hNot⟩
      rcases List.mem_cons.mp hd with rfl | hd
      · exact absurd hc hNot
      · exact hd
    · obtain ⟨b, bs, hFirst, hForeign⟩ := exists_foreign (hBlanks c List.mem_cons_self) hc
      rw [hFirst, List.cons_append]
      refine ⟨b, bs ++ (Utf8.encodeChars cs ++ t), List.dropWhile_cons_of_neg fun hSpace => ?_,
        hForeign⟩
      rcases isSpaceByte_iff.mp hSpace with rfl | rfl | rfl | rfl | rfl <;>
        exact absurd hForeign (by decide)

/-- The reader of integers does not find the digits behind the blanks. -/
theorem Veiled.isEmpty_spelling (v : Veiled s) : IsEmpty (Spelling s) := by
  refine ⟨fun p => ?_⟩
  obtain ⟨b, bs, hDrop, hForeign⟩ := dropWhile_blanks (t := v.sign.bytes ++ v.digit :: v.rest)
    v.blanks_blank v.other
  rw [← v.text_eq, p.dropWhile_space] at hDrop
  obtain ⟨d, ds, hDigits, hd⟩ := p.exists_digits
  rw [hDigits] at hDrop
  revert hDrop
  cases p.sign with
  | none =>
    rintro ⟨⟩
    rcases hForeign with rfl | hFar
    · exact absurd hd (by decide)
    · rw [Decimal.isDigitByte, Bool.and_eq_true, decide_eq_true_iff, decide_eq_true_iff,
        UInt8.le_iff_toNat_le, UInt8.le_iff_toNat_le] at hd
      have hHigh : b.toNat ≤ 57 := hd.2
      omega
  | plus =>
    rintro ⟨⟩
    exact absurd hForeign (by decide)
  | minus =>
    rintro ⟨⟩
    exact absurd hForeign (by decide)

end Numeral

namespace Value

open Numeral (Spelling Veiled InRange)

variable {s : List UInt8}

theorem eq_refuse_of_error {e : NotInteger} (h : (Value.string s).toInt = .error e) :
    e = Coercion.refuse s := by
  by_cases hEmpty : IsEmpty (Spelling s)
  · rw [toInt_of_isEmpty hEmpty] at h
    exact (Except.error.inj h).symm
  · obtain ⟨p⟩ := not_isEmpty_iff.mp hEmpty
    rw [toInt_of_spelling p] at h
    split at h
    · cases h
    · exact (Except.error.inj h).symm

/-- A refused text is out of range when it spells an integer that is, or when its digits are veiled.
Then it spells none. It is non-numeric in all other cases. -/
theorem toInt_string_refused {e : NotInteger} (h : (Value.string s).toInt = .error e) :
    (e = .outOfRange (Utf8.decode s) ↔
      (∃ p : Spelling s, ¬ InRange p.value) ∨ Nonempty (Veiled s) ∧ IsEmpty (Spelling s)) ∧
    (e = .nonNumeric (Utf8.decode s) ↔ IsEmpty (Spelling s) ∧ IsEmpty (Veiled s)) := by
  have hOut (p : Spelling s) : ¬ InRange p.value := fun hIn => by
    obtain ⟨reading, hRead⟩ := (exists_toInt_iff p).mpr hIn
    rw [hRead] at h
    cases h
  rw [eq_refuse_of_error h, Numeral.refuse_eq]
  by_cases hLooks : Coercion.startsNumeric (Utf8.decodeChars s) = true
  · rw [if_pos hLooks]
    rcases Numeral.spelling_or_veiled hLooks with ⟨⟨p⟩⟩ | ⟨⟨v⟩⟩
    · have hCut : ¬ IsEmpty (Spelling s) := fun hEmpty => hEmpty.false p
      exact ⟨iff_of_true rfl (.inl ⟨p, hOut p⟩), iff_of_false (by simp) fun hNone => hCut hNone.1⟩
    · have hVeiled : ¬ IsEmpty (Veiled s) := fun hEmpty => hEmpty.false v
      exact ⟨iff_of_true rfl (.inr ⟨⟨v⟩, v.isEmpty_spelling⟩),
        iff_of_false (by simp) fun hNone => hVeiled hNone.2⟩
  · rw [if_neg hLooks]
    have hSpells : IsEmpty (Spelling s) := ⟨fun p => hLooks (Numeral.startsNumeric_of_spelling p)⟩
    have hVeils : IsEmpty (Veiled s) := ⟨fun v => hLooks (Numeral.startsNumeric_of_veiled v)⟩
    refine ⟨iff_of_false (by simp) ?_, iff_of_true rfl ⟨hSpells, hVeils⟩⟩
    rintro (⟨p, -⟩ | ⟨⟨v⟩, -⟩)
    · exact hSpells.false p
    · exact hVeils.false v

/-- One below the least integer of 64 bits, with leading zeros. -/
def tooLow : List UInt8 := Utf8.encode "\t-009223372036854775809 "

theorem toInt_string_refused_tooLow :
    (Value.string tooLow).toInt = .error (.outOfRange "\t-009223372036854775809 ") ∧
      ((∃ p : Spelling tooLow, ¬ InRange p.value) ∨
        Nonempty (Veiled tooLow) ∧ IsEmpty (Spelling tooLow)) := by
  have hRefused : (Value.string tooLow).toInt =
      .error (.outOfRange "\t-009223372036854775809 ") := by rfl
  exact ⟨hRefused, (toInt_string_refused hRefused).1.mp rfl⟩

/-- A digit behind a vertical tab. -/
def tabbedFive : List UInt8 := [0x0b, 0x35]

/-- A text that spells no integer is called out of range, when it starts with blanks that are not
all space bytes. -/
theorem tabbed_five_out_of_range :
    ¬ (∀ (s : List UInt8) (e : NotInteger), (Value.string s).toInt = .error e →
      (e = .outOfRange (Utf8.decode s) ↔ ∃ p : Spelling s, ¬ InRange p.value) ∧
      (e = .nonNumeric (Utf8.decode s) ↔ IsEmpty (Spelling s))) ∧
    (Value.string tabbedFive).toInt = .error (.outOfRange "\x0b5") ∧
      IsEmpty (Spelling tabbedFive) := by
  have hRefused : (Value.string tabbedFive).toInt = .error (.outOfRange "\x0b5") := by rfl
  have hTab : ∃ c ∈ ['\x0b'], ¬ ∀ b ∈ String.utf8EncodeChar c, isSpaceByte b :=
    ⟨'\x0b', List.mem_singleton_self _,
      fun h => absurd (h 0x0b (List.mem_singleton_self _)) (by decide)⟩
  have hVeiled : Veiled tabbedFive :=
    ⟨['\x0b'], .none, 0x35, [], rfl, by simp [isBlank, Blank.ranges], hTab, rfl⟩
  refine ⟨fun hAll => ?_, hRefused, hVeiled.isEmpty_spelling⟩
  obtain ⟨p, -⟩ := (hAll tabbedFive _ hRefused).1.mp rfl
  exact hVeiled.isEmpty_spelling.false p

end Value

end BlockMachine
