import BlockMachine.Machine.Evaluation
import BlockMachine.Proofs.Text.Decimal
import BlockMachine.Proofs.Text.Run
import BlockMachine.Value.Spelling

/-!
# The integer a text spells
A text is read as an integer exactly when the grammar cuts it and the integer meant is one of 64
bits. There is one way to cut it, so a long run of digits counts as a whole or not at all.
-/

namespace BlockMachine
set_option autoImplicit false

namespace Numeral

theorem isSpaceByte_iff {b : UInt8} :
    isSpaceByte b ↔ b = 32 ∨ b = 9 ∨ b = 10 ∨ b = 12 ∨ b = 13 := by
  simp [isSpaceByte, or_assoc]

theorem not_isSpaceByte_of_digit {b : UInt8} (h : Decimal.isDigitByte b) : ¬ isSpaceByte b := by
  rw [isSpaceByte_iff]
  rintro (rfl | rfl | rfl | rfl | rfl) <;> exact absurd h (by decide)

theorem sign_of_digit {b : UInt8} (h : Decimal.isDigitByte b) (t : List UInt8) :
    sign (b :: t) = (false, b :: t) := by
  have hMinus : b ≠ 45 := by
    rintro rfl
    exact absurd h (by decide)
  have hPlus : b ≠ 43 := by
    rintro rfl
    exact absurd h (by decide)
  rw [sign]
  · rintro rest ⟨⟩
    exact hMinus rfl
  · rintro rest ⟨⟩
    exact hPlus rfl

theorem signed_eq_apply (g : Sign) (n : Nat) : signed (decide (g = .minus)) n = g.apply n := by
  cases g <;> rfl

/-- The reader of signs finds a sign of the grammar, and no other. -/
theorem exists_sign (t : List UInt8) :
    ∃ g : Sign, t = g.bytes ++ (sign t).2 ∧ (sign t).1 = decide (g = .minus) := by
  unfold sign
  split
  · exact ⟨.minus, rfl, rfl⟩
  · exact ⟨.plus, rfl, rfl⟩
  · exact ⟨.none, rfl, rfl⟩

namespace Spelling

variable {s : List UInt8} (p : Spelling s)

theorem exists_digits : ∃ b bs, p.digits = b :: bs ∧ Decimal.isDigitByte b := by
  obtain ⟨b, bs, hDigits⟩ := List.exists_cons_of_ne_nil p.digits_ne_nil
  exact ⟨b, bs, hDigits, p.digits_digit b (hDigits ▸ List.mem_cons_self)⟩

theorem not_space_of_head :
    ∀ b ∈ (p.sign.bytes ++ (p.digits ++ p.rest)).head?, ¬ isSpaceByte b := by
  obtain ⟨b, bs, hDigits, hb⟩ := p.exists_digits
  rw [hDigits]
  cases p.sign with
  | none =>
    rintro _ ⟨⟩
    exact not_isSpaceByte_of_digit hb
  | plus =>
    rintro _ ⟨⟩
    decide
  | minus =>
    rintro _ ⟨⟩
    decide

theorem takeWhile_space : s.takeWhile isSpaceByte = p.spaces := by
  have h := Text.takeWhile_run p.spaces_space p.not_space_of_head
  rwa [← p.text_eq] at h

theorem dropWhile_space : s.dropWhile isSpaceByte = p.sign.bytes ++ (p.digits ++ p.rest) := by
  have h := Text.dropWhile_run p.spaces_space p.not_space_of_head
  rwa [← p.text_eq] at h

theorem sign_eq : Numeral.sign (p.sign.bytes ++ (p.digits ++ p.rest)) =
    (decide (p.sign = .minus), p.digits ++ p.rest) := by
  obtain ⟨b, bs, hDigits, hb⟩ := p.exists_digits
  cases p.sign with
  | none =>
    rw [hDigits]
    exact sign_of_digit hb _
  | plus => rfl
  | minus => rfl

theorem takeWhile_digit : (p.digits ++ p.rest).takeWhile Decimal.isDigitByte = p.digits :=
  Text.takeWhile_run p.digits_digit p.rest_stops

theorem dropWhile_digit : (p.digits ++ p.rest).dropWhile Decimal.isDigitByte = p.rest :=
  Text.dropWhile_run p.digits_digit p.rest_stops

theorem split_eq : split s = (Decimal.toInt64? p.value).map (·, p.rest) := by
  have hDigits : p.digits.isEmpty = false := List.isEmpty_eq_false_iff.mpr p.digits_ne_nil
  rw [split, p.dropWhile_space, p.sign_eq]
  simp only [p.takeWhile_digit, p.dropWhile_digit, hDigits, Bool.false_eq_true, if_false]
  rw [value?_eq, signed_eq_apply, Decimal.ofDigits_eq, value]

theorem unique (p q : Spelling s) : p = q := by
  have hBody := p.dropWhile_space.symm.trans q.dropWhile_space
  have hSign := congrArg Numeral.sign hBody
  rw [p.sign_eq, q.sign_eq] at hSign
  have hSpaces : p.spaces = q.spaces := p.takeWhile_space.symm.trans q.takeWhile_space
  obtain ⟨hDigits, hRest⟩ := Text.run_inj p.digits_digit q.digits_digit p.rest_stops q.rest_stops
    (congrArg Prod.snd hSign)
  rw [hDigits, hRest] at hBody
  have hSame : p.sign = q.sign := by
    have hBytes := List.append_cancel_right hBody
    revert hBytes
    cases p.sign <;> cases q.sign <;> decide
  cases p
  cases q
  cases hSpaces
  cases hSame
  cases hDigits
  cases hRest
  rfl

end Spelling

/-- A text that goes on with a digit after spaces and a sign is cut by the grammar. -/
theorem exists_spelling {s spaces t : List UInt8} {g : Sign} (hText : s = spaces ++ (g.bytes ++ t))
    (hSpaces : ∀ b ∈ spaces, isSpaceByte b) (hDigits : t.takeWhile Decimal.isDigitByte ≠ []) :
    Nonempty (Spelling s) := by
  refine ⟨⟨spaces, g, t.takeWhile Decimal.isDigitByte, t.dropWhile Decimal.isDigitByte, ?_, hSpaces,
    hDigits, fun b hb => List.mem_takeWhile_imp hb, fun b hb => ?_⟩⟩
  · rw [List.takeWhile_append_dropWhile]
    exact hText
  · have hStop := List.head?_dropWhile_not Decimal.isDigitByte t
    rw [Option.mem_def.mp hb] at hStop
    simpa using hStop

theorem split_eq_none {s : List UInt8} (h : IsEmpty (Spelling s)) : split s = none := by
  obtain ⟨g, hSign, -⟩ := exists_sign (s.dropWhile isSpaceByte)
  have hDigits : (sign (s.dropWhile isSpaceByte)).2.takeWhile Decimal.isDigitByte = [] := by
    by_contra hDigits
    have hText : s = s.takeWhile isSpaceByte ++ (g.bytes ++ (sign (s.dropWhile isSpaceByte)).2) := by
      rw [← hSign, List.takeWhile_append_dropWhile]
    obtain ⟨p⟩ := exists_spelling hText (fun b hb => List.mem_takeWhile_imp hb) hDigits
    exact h.false p
  rw [split]
  simp only [hDigits, List.isEmpty_nil, if_true]

theorem exists_toInt64?_iff {n : Int} : (∃ m, Decimal.toInt64? n = some m) ↔ InRange n := by
  constructor
  · rintro ⟨m, hm⟩
    have hLow := m.le_toInt
    have hHigh := m.toInt_lt
    rw [Decimal.toInt64?_eq_some_iff.mp hm, InRange]
    omega
  · rintro ⟨hLow, hHigh⟩
    have hMin : Int64.minValue.toInt = -0x8000000000000000 := rfl
    have hMax : Int64.maxValue.toInt = 0x7fffffffffffffff := rfl
    exact ⟨Int64.ofInt n, by rw [Decimal.toInt64?, hMin, hMax, if_pos (by omega)]⟩

end Numeral

namespace Value

open Numeral (Spelling InRange)

variable {s : List UInt8}

theorem toInt_of_spelling (p : Spelling s) : (Value.string s).toInt =
    match Decimal.toInt64? p.value with
    | some n => .ok ⟨n, p.warning⟩
    | none => .error (Coercion.refuse s) := by
  rw [toInt, Coercion.readBytes, p.split_eq]
  cases Decimal.toInt64? p.value with
  | none => rfl
  | some n => rfl

theorem asNumeric_of_spelling (p : Spelling s) : (Value.string s).asNumeric =
    if p.rest.all isSpaceByte then Decimal.toInt64? p.value else none := by
  rw [asNumeric, p.split_eq]
  cases Decimal.toInt64? p.value with
  | none => exact (ite_self none).symm
  | some n => rfl

theorem toInt_of_isEmpty (h : IsEmpty (Spelling s)) :
    (Value.string s).toInt = .error (Coercion.refuse s) := by
  rw [toInt, Coercion.readBytes, Numeral.split_eq_none h]

theorem asNumeric_of_isEmpty (h : IsEmpty (Spelling s)) : (Value.string s).asNumeric = none := by
  rw [asNumeric, Numeral.split_eq_none h]

theorem toInt_eq_ok_iff {n : Int64} {warning : Option String} :
    (Value.string s).toInt = .ok ⟨n, warning⟩ ↔
      ∃ p : Spelling s, p.value = n.toInt ∧ p.warning = warning := by
  constructor
  · intro h
    by_cases hEmpty : IsEmpty (Spelling s)
    · rw [toInt_of_isEmpty hEmpty] at h
      cases h
    · obtain ⟨p⟩ := not_isEmpty_iff.mp hEmpty
      rw [toInt_of_spelling p] at h
      split at h
      · rename_i m hm
        cases h
        exact ⟨p, Decimal.toInt64?_eq_some_iff.mp hm, rfl⟩
      · cases h
  · rintro ⟨p, hValue, hWarning⟩
    rw [toInt_of_spelling p, Decimal.toInt64?_eq_some_iff.mpr hValue, ← hWarning]

theorem asNumeric_eq_some_iff {n : Int64} :
    (Value.string s).asNumeric = some n ↔ (Value.string s).toInt = .ok ⟨n, none⟩ := by
  rw [toInt_eq_ok_iff]
  constructor
  · intro h
    by_cases hEmpty : IsEmpty (Spelling s)
    · rw [asNumeric_of_isEmpty hEmpty] at h
      cases h
    · obtain ⟨p⟩ := not_isEmpty_iff.mp hEmpty
      rw [asNumeric_of_spelling p] at h
      split at h
      · rename_i hRest
        exact ⟨p, Decimal.toInt64?_eq_some_iff.mp h, if_pos hRest⟩
      · cases h
  · rintro ⟨p, hValue, hWarning⟩
    rw [asNumeric_of_spelling p, Decimal.toInt64?_eq_some_iff.mpr hValue]
    rw [Spelling.warning] at hWarning
    split at hWarning
    · rename_i hRest
      exact if_pos hRest
    · cases hWarning

theorem exists_toInt_iff (p : Spelling s) :
    (∃ reading, (Value.string s).toInt = .ok reading) ↔ InRange p.value := by
  rw [← Numeral.exists_toInt64?_iff, toInt_of_spelling p]
  cases Decimal.toInt64? p.value <;> simp

section Warned

variable {place : Type} {mnemonic : String} {operand : place} {earlier later : List String}

theorem int_of_ok {r : Reading} (h : (Value.string s).toInt = .ok r) :
    Eval.int (fun _ => pure (.string s)) mnemonic operand earlier =
      .ok r.value (earlier ++ r.warning.toList) := by
  simp only [Eval.int, pure_bind, h]
  rfl

theorem int_of_error {e : NotInteger} (h : (Value.string s).toInt = .error e) :
    Eval.int (fun _ => pure (.string s)) mnemonic operand earlier =
      .error (.coercion mnemonic operand .string .integer e) earlier := by
  simp only [Eval.int, pure_bind, h]
  rfl

/-- The machine warns of a text once, when it reads it and something is dropped. -/
theorem int_eq_ok_iff {n : Int64} :
    Eval.int (fun _ => pure (.string s)) mnemonic operand earlier = .ok n later ↔
      ∃ p : Spelling s, p.value = n.toInt ∧ later = earlier ++ p.warning.toList := by
  constructor
  · intro h
    cases hRead : (Value.string s).toInt with
    | ok r =>
      rw [int_of_ok hRead] at h
      cases h
      obtain ⟨p, hValue, hWarning⟩ := toInt_eq_ok_iff.mp hRead
      exact ⟨p, hValue, by rw [hWarning]⟩
    | error e =>
      rw [int_of_error hRead] at h
      cases h
  · rintro ⟨p, hValue, rfl⟩
    rw [int_of_ok (toInt_eq_ok_iff.mpr ⟨p, hValue, rfl⟩)]

end Warned

/-- A text is read as an integer exactly when the grammar cuts it and the integer meant is one of 64
bits, and the warning is given exactly when more than spaces follows the digits. Without a warning
the text is a number as a whole. -/
theorem toInt_string_spelled (s : List UInt8) :
    (∀ n warning, (Value.string s).toInt = .ok ⟨n, warning⟩ ↔
      ∃ p : Spelling s, p.value = n.toInt ∧ p.warning = warning) ∧
    (∀ p : Spelling s, (∃ reading, (Value.string s).toInt = .ok reading) ↔ InRange p.value) ∧
    (∀ p q : Spelling s, p = q) ∧
    (∀ n, (Value.string s).asNumeric = some n ↔ (Value.string s).toInt = .ok ⟨n, none⟩) ∧
    ∀ (place : Type) (mnemonic : String) (operand : place) (n : Int64) (earlier later : List String),
      Eval.int (fun _ => pure (.string s)) mnemonic operand earlier = .ok n later ↔
        ∃ p : Spelling s, p.value = n.toInt ∧ later = earlier ++ p.warning.toList :=
  ⟨fun _ _ => toInt_eq_ok_iff, exists_toInt_iff, Spelling.unique, fun _ => asNumeric_eq_some_iff,
    fun _ _ _ _ _ _ => int_eq_ok_iff⟩

example : (Value.ofString " -0009223372036854775808\t!").toInt =
    .ok ⟨Int64.minValue, some " -0009223372036854775808\t!"⟩ := by rfl

end Value

end BlockMachine
