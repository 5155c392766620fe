import BlockMachine.Proofs.Text.Utf8
import BlockMachine.Text.Decimal
import Mathlib.Data.Nat.Digits.Defs

/-!
# Decimal integers, written and read
A run of digit bytes means the number that its digits have in base ten, and the digits written for
a number are such a run and mean it.
-/

namespace BlockMachine.Decimal
set_option autoImplicit false

theorem ofDigits_eq (digits : List UInt8) :
    ofDigits digits = Nat.ofDigits 10 (digits.reverse.map fun b => b.toNat - 48) := by
  rw [Nat.ofDigits_eq_foldr, List.foldr_map, List.foldr_reverse, ofDigits]
  congr 1
  funext n b
  exact Nat.add_comm _ _

theorem toInt64?_eq_some_iff {z : Int} {n : Int64} : toInt64? z = some n ↔ z = n.toInt := by
  have hMin : Int64.minValue.toInt = -0x8000000000000000 := rfl
  have hMax : Int64.maxValue.toInt = 0x7fffffffffffffff := rfl
  rw [toInt64?, hMin, hMax]
  constructor
  · intro h
    split at h
    · rename_i hRange
      cases h
      exact (Int64.toInt_ofInt_of_le (by omega) (by omega)).symm
    · cases h
  · rintro rfl
    have hLow := n.le_toInt
    have hHigh := n.toInt_lt
    rw [if_pos (by omega), Int64.ofInt_toInt]

theorem isDigit_of_mem {n : Nat} {c : Char} (h : c ∈ Nat.toDigits 10 n) : c.isDigit = true :=
  Nat.isDigit_of_mem_toDigits (by decide) (by decide) h

theorem utf8EncodeChar_of_isDigit {c : Char} (h : c.isDigit = true) :
    String.utf8EncodeChar c = [c.toNat.toUInt8] ∧ c.toNat.toUInt8.toNat = c.toNat ∧
      isDigitByte c.toNat.toUInt8 := by
  have hBounds : 48 ≤ c.toNat ∧ c.toNat ≤ 57 := Char.isDigit_iff_toNat.mp h
  have hNat : c.toNat.toUInt8.toNat = c.toNat := Utf8.toNat_byte (by omega)
  refine ⟨Utf8.utf8EncodeChar_of_lt (by omega), hNat, ?_⟩
  rw [isDigitByte, Bool.and_eq_true, decide_eq_true_iff, decide_eq_true_iff, UInt8.le_iff_toNat_le,
    UInt8.le_iff_toNat_le, hNat]
  exact hBounds

theorem encodeChars_of_isDigit {cs : List Char} (h : ∀ c ∈ cs, c.isDigit = true) :
    Utf8.encodeChars cs = cs.map fun c => c.toNat.toUInt8 := by
  induction cs with
  | nil => rfl
  | cons c cs ih =>
    have hHead := (utf8EncodeChar_of_isDigit (h c List.mem_cons_self)).1
    have hTail := ih fun d hd => h d (List.mem_cons_of_mem c hd)
    rw [Utf8.encodeChars] at hTail ⊢
    rw [List.flatMap_cons, hHead, hTail]
    rfl

theorem ofDigits_toDigits (n : Nat) :
    ofDigits ((Nat.toDigits 10 n).map fun c => c.toNat.toUInt8) = n := by
  have hFold (cs : List Char) (h : ∀ c ∈ cs, c.isDigit = true) (acc : Nat) :
      (cs.map fun c => c.toNat.toUInt8).foldl (fun n b => 10 * n + (b.toNat - 48)) acc =
        Nat.ofDigitChars 10 cs acc := by
    induction cs generalizing acc with
    | nil => rfl
    | cons c cs ih =>
      have hByte := (utf8EncodeChar_of_isDigit (h c List.mem_cons_self)).2.1
      rw [List.map_cons, List.foldl_cons, hByte, Nat.ofDigitChars_cons]
      exact ih (fun d hd => h d (List.mem_cons_of_mem c hd)) _
  rw [ofDigits, hFold _ fun c hc => isDigit_of_mem hc]
  exact Nat.ofDigitChars_ten_toDigits

end BlockMachine.Decimal
