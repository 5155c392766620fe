import BlockMachine.Proofs.Value.Spelling
import BlockMachine.Value.Equality

/-!
# Loose equality
Strings and integers are loosely equal when they mean the same: the integer that they spell as a
whole, or else their text. Between them loose equality is an equivalence, and no coercion tells
equal ones apart. The other types take part in it without transitivity.
-/

namespace BlockMachine.Value
set_option autoImplicit false

open Numeral (Spelling)

/-- The types between which loose equality is an equivalence. -/
inductive IsWritten : Value → Prop
  | string (bytes : List UInt8) : IsWritten (.string bytes)
  | integer (n : Int64) : IsWritten (.integer n)

/-- The integer that the whole of a value spells, or its text if it spells none. -/
def meaning (v : Value) : Int64 ⊕ List UInt8 :=
  match v.asNumeric with
  | some n => .inl n
  | none => .inr v.toBytes

variable {v w : Value}

theorem meaning_of_some {n : Int64} (h : v.asNumeric = some n) : v.meaning = .inl n := by
  rw [meaning, h]

theorem meaning_of_none (h : v.asNumeric = none) : v.meaning = .inr v.toBytes := by
  rw [meaning, h]

def spelling (n : Int64) : Spelling (Value.integer n).toBytes where
  spaces := []
  sign := if n.toInt < 0 then .minus else .none
  digits := (Nat.toDigits 10 n.toInt.natAbs).map fun c => c.toNat.toUInt8
  rest := []
  text_eq := by
    have hDigits : Utf8.encodeChars (Nat.toDigits 10 n.toInt.natAbs) =
        (Nat.toDigits 10 n.toInt.natAbs).map fun c => c.toNat.toUInt8 :=
      Decimal.encodeChars_of_isDigit fun c hc => Decimal.isDigit_of_mem hc
    rw [List.nil_append, List.append_nil, ← hDigits, toBytes, Utf8.encode, Decimal.text,
      String.toList_ofList, Decimal.ofInt]
    split <;> rfl
  spaces_space := List.forall_mem_nil _
  digits_ne_nil := by simp [Nat.toDigits_ne_nil]
  digits_digit := by
    intro b hb
    obtain ⟨c, hc, rfl⟩ := List.mem_map.mp hb
    exact (Decimal.utf8EncodeChar_of_isDigit (Decimal.isDigit_of_mem hc)).2.2
  rest_stops := by
    rintro b ⟨⟩

theorem value_spelling (n : Int64) : (spelling n).value = n.toInt := by
  rw [Spelling.value, ← Decimal.ofDigits_eq, spelling, Decimal.ofDigits_toDigits]
  split
  · rw [Numeral.Sign.apply]
    omega
  · rw [Numeral.Sign.apply]
    · omega
    · exact Numeral.Sign.noConfusion

theorem toInt_toBytes (n : Int64) :
    (Value.string (Value.integer n).toBytes).toInt = .ok ⟨n, none⟩ :=
  toInt_eq_ok_iff.mpr ⟨spelling n, value_spelling n, rfl⟩

theorem asNumeric_toBytes (n : Int64) :
    (Value.string (Value.integer n).toBytes).asNumeric = some n :=
  asNumeric_eq_some_iff.mpr (toInt_toBytes n)

namespace IsWritten

theorem asNumeric_eq (hv : v.IsWritten) : v.asNumeric = (Value.string v.toBytes).asNumeric := by
  cases hv with
  | string bytes => rfl
  | integer n => exact (asNumeric_toBytes n).symm

theorem toInt_eq (hv : v.IsWritten) : v.toInt = (Value.string v.toBytes).toInt := by
  cases hv with
  | string bytes => rfl
  | integer n => exact (toInt_toBytes n).symm

theorem looseEq_of_some {m n : Int64} (hv : v.IsWritten) (hw : w.IsWritten)
    (hm : v.asNumeric = some m) (hn : w.asNumeric = some n) : v.looseEq w = (m == n) := by
  cases hv <;> cases hw <;> simp only [looseEq, hm, hn]

theorem looseEq_of_none (hv : v.IsWritten) (hw : w.IsWritten)
    (h : v.asNumeric = none ∨ w.asNumeric = none) : v.looseEq w = (v.toBytes == w.toBytes) := by
  cases hm : v.asNumeric with
  | none => cases hv <;> cases hw <;> simp only [looseEq, hm]
  | some m =>
    have hn := h.resolve_left (by rw [hm]; exact Option.some_ne_none m)
    cases hv <;> cases hw <;> simp only [looseEq, hm, hn]

/-- No number is equal to a text that is none: a text with the digits of a number is that number. -/
theorem looseEq_iff (hv : v.IsWritten) (hw : w.IsWritten) :
    v.looseEq w = true ↔ v.meaning = w.meaning := by
  have hApart (h : v.asNumeric ≠ w.asNumeric) : v.toBytes ≠ w.toBytes := fun hBytes => h (by
    rw [hv.asNumeric_eq, hw.asNumeric_eq, hBytes])
  cases hm : v.asNumeric with
  | some m =>
    cases hn : w.asNumeric with
    | some n =>
      rw [hv.looseEq_of_some hw hm hn, meaning_of_some hm, meaning_of_some hn, beq_iff_eq,
        Sum.inl.injEq]
    | none =>
      have hBytes := hApart (by rw [hm, hn]; exact Option.some_ne_none m)
      rw [hv.looseEq_of_none hw (.inr hn), meaning_of_some hm, meaning_of_none hn, beq_iff_eq]
      exact iff_of_false hBytes Sum.inl_ne_inr
  | none =>
    cases hn : w.asNumeric with
    | some n =>
      have hBytes := hApart (by rw [hm, hn]; exact (Option.some_ne_none n).symm)
      rw [hv.looseEq_of_none hw (.inl hm), meaning_of_none hm, meaning_of_some hn, beq_iff_eq]
      exact iff_of_false hBytes Sum.inr_ne_inl
    | none =>
      rw [hv.looseEq_of_none hw (.inl hm), meaning_of_none hm, meaning_of_none hn, beq_iff_eq,
        Sum.inr.injEq]

theorem meaning_eq_iff : v.meaning = w.meaning ↔
    (∃ n, v.asNumeric = some n ∧ w.asNumeric = some n) ∨
      (v.asNumeric = none ∧ w.asNumeric = none ∧ v.toBytes = w.toBytes) := by
  cases hm : v.asNumeric with
  | some m =>
    cases hn : w.asNumeric with
    | some n => simp [meaning_of_some hm, meaning_of_some hn, eq_comm]
    | none => simp [meaning_of_some hm, meaning_of_none hn]
  | none =>
    cases hn : w.asNumeric with
    | some n => simp [meaning_of_none hm, meaning_of_some hn]
    | none => simp [meaning_of_none hm, meaning_of_none hn]

theorem toInt_of_some {n : Int64} (hv : v.IsWritten) (h : v.asNumeric = some n) :
    v.toInt = .ok ⟨n, none⟩ := by
  rw [hv.toInt_eq]
  rw [hv.asNumeric_eq] at h
  exact asNumeric_eq_some_iff.mp h

theorem toInt_congr (hv : v.IsWritten) (hw : w.IsWritten) (h : v.looseEq w = true) :
    v.toInt = w.toInt := by
  rcases meaning_eq_iff.mp ((hv.looseEq_iff hw).mp h) with ⟨n, hm, hn⟩ | ⟨-, -, hBytes⟩
  · rw [hv.toInt_of_some hm, hw.toInt_of_some hn]
  · rw [hv.toInt_eq, hw.toInt_eq, hBytes]

end IsWritten

theorem boolean_looseEq (b : Bool) (w : Value) : (boolean b).looseEq w = (b == w.toBool) := by
  cases w <;> rfl

theorem looseEq_boolean (v : Value) (b : Bool) : v.looseEq (boolean b) = (v.toBool == b) := by
  cases v <;> rfl

/-- What was never written equals a string as the empty text does. -/
theorem string_looseEq_unknown (bytes : List UInt8) :
    (string bytes).looseEq unknown = (bytes == []) := by
  simp only [looseEq]
  cases (string bytes).asNumeric <;> rfl

theorem looseEq_refl (v : Value) : v.looseEq v = true := by
  cases v with
  | unknown => rfl
  | string bytes => exact ((IsWritten.string bytes).looseEq_iff (.string bytes)).mpr rfl
  | integer n => exact ((IsWritten.integer n).looseEq_iff (.integer n)).mpr rfl
  | boolean b => exact beq_self_eq_true b

theorem looseEq_comm (v w : Value) : v.looseEq w = w.looseEq v := by
  have hWritten (hv : v.IsWritten) (hw : w.IsWritten) : v.looseEq w = w.looseEq v := by
    rw [Bool.eq_iff_iff, hv.looseEq_iff hw, hw.looseEq_iff hv, eq_comm]
  cases v with
  | boolean b => rw [boolean_looseEq, looseEq_boolean, Bool.beq_comm]
  | unknown =>
    cases w with
    | boolean b => rw [boolean_looseEq, looseEq_boolean, Bool.beq_comm]
    | string bytes => exact Bool.beq_comm.trans (string_looseEq_unknown bytes).symm
    | unknown | integer n => rfl
  | string bytes =>
    cases w with
    | boolean b => rw [boolean_looseEq, looseEq_boolean, Bool.beq_comm]
    | unknown => exact (string_looseEq_unknown bytes).trans Bool.beq_comm
    | string _ => exact hWritten (.string _) (.string _)
    | integer n => exact hWritten (.string _) (.integer n)
  | integer n =>
    cases w with
    | boolean b => rw [boolean_looseEq, looseEq_boolean, Bool.beq_comm]
    | unknown => rfl
    | string bytes => exact hWritten (.integer n) (.string bytes)
    | integer m => exact hWritten (.integer n) (.integer m)

theorem looseEq_toBytes (v : Value) : v.looseEq (.string v.toBytes) = true := by
  cases v with
  | unknown => rfl
  | string bytes => exact looseEq_refl _
  | integer n =>
    rw [(IsWritten.integer n).looseEq_iff (.string _), meaning_of_some (asNumeric_toBytes n)]
    rfl
  | boolean b => cases b <;> rfl

/-- Loose equality is reflexive and symmetric, and no value is told from its text. Between strings
and integers it is an equivalence, which is equality of the numbers that are spelled and of the
texts that spell none, and equal ones are read as the same integer or refused for the same reason.
An integer is the number that its own text spells. -/
theorem looseEq_laws :
    (∀ v : Value, v.looseEq v = true) ∧
    (∀ v w : Value, v.looseEq w = w.looseEq v) ∧
    (∀ v : Value, v.looseEq (.string v.toBytes) = true) ∧
    (∀ u v w : Value, u.IsWritten → v.IsWritten → w.IsWritten →
      u.looseEq v = true → v.looseEq w = true → u.looseEq w = true) ∧
    (∀ v w : Value, v.IsWritten → w.IsWritten → (v.looseEq w = true ↔
      (∃ n, v.asNumeric = some n ∧ w.asNumeric = some n) ∨
        (v.asNumeric = none ∧ w.asNumeric = none ∧ v.toBytes = w.toBytes))) ∧
    (∀ v w : Value, v.IsWritten → w.IsWritten → v.looseEq w = true →
      v.toInt.map Reading.value = w.toInt.map Reading.value) ∧
    ∀ n : Int64, (Value.string (Value.integer n).toBytes).asNumeric = some n := by
  refine ⟨looseEq_refl, looseEq_comm, looseEq_toBytes, fun u v w hu hv hw huv hvw => ?_,
    fun v w hv hw => ?_, fun v w hv hw h => ?_, asNumeric_toBytes⟩
  · rw [hu.looseEq_iff hv] at huv
    rw [hv.looseEq_iff hw] at hvw
    exact (hu.looseEq_iff hw).mpr (huv.trans hvw)
  · rw [hv.looseEq_iff hw, IsWritten.meaning_eq_iff]
  · rw [hv.toInt_congr hw h]

/-- The least integer, with a leading zero and in the middle of spaces. -/
def paddedLeast : Value := .ofString " -09223372036854775808\n"

theorem looseEq_laws_least :
    (Value.integer Int64.minValue).looseEq paddedLeast = true ∧
      paddedLeast.looseEq (.ofString "-9223372036854775808") = true ∧
      (Value.integer Int64.minValue).looseEq (.ofString "-9223372036854775808") = true ∧
      paddedLeast.toInt.map Reading.value = .ok Int64.minValue := by
  have hNumber : (Value.integer Int64.minValue).IsWritten := .integer _
  have hPadded : paddedLeast.IsWritten := .string _
  have hPlain : (Value.ofString "-9223372036854775808").IsWritten := .string _
  have hFirst : (Value.integer Int64.minValue).looseEq paddedLeast = true := by rfl
  have hSecond : paddedLeast.looseEq (.ofString "-9223372036854775808") = true := by rfl
  have hSame := looseEq_laws.2.2.2.2.2.1 _ _ hNumber hPadded hFirst
  exact ⟨hFirst, hSecond,
    looseEq_laws.2.2.2.1 _ _ _ hNumber hPadded hPlain hFirst hSecond, hSame.symm⟩

end BlockMachine.Value
