import BlockMachine.Image.Format

/-!
# Exact formats
A reader takes some bytes for a value when it leaves alone what follows them and calls every
shorter prefix of them too short. A format is exact on values when its reader takes what it writes
for each of them. Exact formats are closed under the ways formats are put together.
-/

namespace BlockMachine
set_option autoImplicit false

variable {α β : Type}

namespace Reader

theorem bind_ok {r : Reader α} {f : α → Reader β} {bs rest : List UInt8} {a : α}
    (h : r bs = .ok (a, rest)) : (r >>= f) bs = f a rest := by
  change Except.bind (r bs) _ = _
  rw [h]
  rfl

theorem bind_error {r : Reader α} {f : α → Reader β} {bs : List UInt8} {e : Malformed}
    (h : r bs = .error e) : (r >>= f) bs = .error e := by
  change Except.bind (r bs) _ = _
  rw [h]
  rfl

/-- These bytes, no more and no fewer, are read as the value. -/
structure Takes (r : Reader α) (bs : List UInt8) (a : α) : Prop where
  read_append : ∀ rest, r (bs ++ rest) = .ok (a, rest)
  read_short : ∀ front back, bs = front ++ back → back ≠ [] → r front = .error .endOfInput

namespace Takes

theorem pure (a : α) : Takes (Pure.pure a : Reader α) [] a where
  read_append _ := rfl
  read_short _ _ h hBack := absurd (List.append_eq_nil_iff.mp h.symm).2 hBack

theorem bind {r : Reader α} {f : α → Reader β} {bs cs : List UInt8} {a : α} {b : β}
    (hr : Takes r bs a) (hf : Takes (f a) cs b) : Takes (r >>= f) (bs ++ cs) b where
  read_append rest := by
    rw [List.append_assoc, bind_ok (hr.read_append (cs ++ rest)), hf.read_append]
  read_short front back h hBack := by
    rcases List.append_eq_append_iff.mp h with ⟨more, rfl, hCs⟩ | ⟨more, rfl, hBackEq⟩
    · rw [bind_ok (hr.read_append more)]
      exact hf.read_short more back hCs hBack
    · cases more with
      | nil =>
        rw [List.nil_append] at hBackEq
        have hFirst := hr.read_append []
        rw [List.append_nil, List.append_nil] at hFirst
        rw [bind_ok hFirst]
        exact hf.read_short [] back hBackEq.symm hBack
      | cons m more => exact bind_error (hr.read_short front (m :: more) rfl (List.cons_ne_nil m more))

theorem map {r : Reader α} {bs : List UInt8} {a : α} (h : Takes r bs a) (f : α → β) :
    Takes (f <$> r) bs (f a) := by
  have hBind := h.bind (f := fun a => Pure.pure (f a)) (Takes.pure (f a))
  rw [List.append_nil] at hBind
  exact hBind

theorem byte (b : UInt8) : Takes Reader.byte [b] b where
  read_append _ := rfl
  read_short front back h hBack := by
    cases front with
    | nil => rfl
    | cons c front =>
      have hEmpty := (List.cons.inj h).2
      exact absurd (List.append_eq_nil_iff.mp hEmpty.symm).2 hBack

theorem byte_bind {f : UInt8 → Reader β} {cs : List UInt8} {c : UInt8} {b : β}
    (h : Takes (f c) cs b) : Takes (Reader.byte >>= f) (c :: cs) b := (byte c).bind h

theorem many {r : Reader α} {write : α → List UInt8} (as : List α)
    (h : ∀ a ∈ as, Takes r (write a) a) : Takes (Reader.many r as.length) (as.flatMap write) as := by
  induction as with
  | nil => exact Takes.pure []
  | cons a as ih =>
    have hRest := ih fun x hx => h x (List.mem_cons_of_mem a hx)
    have hAll := (h a List.mem_cons_self).bind
      (f := fun a => Reader.many r as.length >>= fun as => Pure.pure (a :: as))
      (hRest.bind (Takes.pure (a :: as)))
    rw [List.append_nil] at hAll
    exact hAll

end Takes

end Reader

namespace Format

/-- The format reads back what it writes for the given values, and needs all of it. -/
def Exact (f : Format α) (Fits : α → Prop) : Prop := ∀ a, Fits a → Reader.Takes f.read (f.write a) a

theorem Exact.mono {f : Format α} {P Q : α → Prop} (h : f.Exact P) (hPQ : ∀ a, Q a → P a) :
    f.Exact Q := fun a ha => h a (hPQ a ha)

theorem readVarint_takes (top more n : Nat) (hTop : top < 128)
    (hn : n < (top + 1) * Nat.pow 128 more) :
    Reader.Takes (readVarint top more) (writeVarint more n) n := by
  induction more generalizing n with
  | zero =>
    have hLt : n < top + 1 := by simpa using hn
    have hByte : n.toUInt8.toNat = n := by simp [Nat.toUInt8]; omega
    have hLe : n.toUInt8.toNat ≤ top := by omega
    rw [writeVarint, readVarint]
    apply Reader.Takes.byte_bind
    rw [if_pos hLe, hByte]
    exact Reader.Takes.pure n
  | succ more ih =>
    rw [writeVarint, readVarint]
    split
    · rename_i hSmall
      have hByte : n.toUInt8.toNat = n := by simp [Nat.toUInt8]; omega
      apply Reader.Takes.byte_bind
      rw [hByte, if_pos hSmall]
      exact Reader.Takes.pure n
    · have hByte : (n % 128 + 128).toUInt8.toNat = n % 128 + 128 := by simp [Nat.toUInt8]; omega
      have hHigh : n / 128 < (top + 1) * Nat.pow 128 more := by
        rw [Nat.div_lt_iff_lt_mul (by decide), Nat.mul_assoc]
        exact hn
      have hValue : n % 128 + 128 - 128 + 128 * (n / 128) = n := by omega
      apply Reader.Takes.byte_bind
      rw [hByte, if_neg (by omega)]
      have hAll := (ih (n / 128) hHigh).map (n % 128 + 128 - 128 + 128 * ·)
      simp only [hValue] at hAll
      exact hAll

theorem varint_exact (more top : Nat) (hTop : top < 128) :
    (varint more top).Exact (· < (top + 1) * Nat.pow 128 more) :=
  fun n hn => readVarint_takes top more n hTop hn

theorem word_exact : word.Exact (· < UInt64.size) := varint_exact 9 1 (by decide)

theorem halfWord_exact : halfWord.Exact (· < UInt32.size) := varint_exact 4 15 (by decide)

theorem byte_exact : byte.Exact fun _ => True := fun b _ => Reader.Takes.byte b

theorem bool_exact : bool.Exact fun _ => True := by
  intro b _
  cases b <;> exact Reader.Takes.byte_bind (Reader.Takes.pure _)

theorem Exact.map {f : Format α} {Fits : α → Prop} (hf : f.Exact Fits) {decode : α → β}
    {encode : β → α} (inverse : ∀ b, decode (encode b) = b) :
    (f.map decode encode).Exact fun b => Fits (encode b) := by
  intro b hb
  have h := (hf (encode b) hb).map decode
  rw [inverse] at h
  exact h

theorem Exact.pair {f : Format α} {g : Format β} {P : α → Prop} {Q : β → Prop}
    (hf : f.Exact P) (hg : g.Exact Q) : (f.pair g).Exact fun p => P p.1 ∧ Q p.2 := by
  rintro ⟨a, b⟩ ⟨ha, hb⟩
  have hSecond := (hg b hb).map (Prod.mk a)
  exact (hf a ha).bind hSecond

theorem Exact.option {f : Format α} {Fits : α → Prop} (hf : f.Exact Fits) :
    f.option.Exact fun o => ∀ a ∈ o, Fits a := by
  intro o ho
  cases o with
  | none => exact Reader.Takes.byte_bind (Reader.Takes.pure none)
  | some a => exact Reader.Takes.byte_bind ((hf a (ho a rfl)).map some)

theorem Exact.list {f : Format α} {Fits : α → Prop} (hf : f.Exact Fits) :
    f.list.Exact fun as => as.length < UInt64.size ∧ ∀ a ∈ as, Fits a := by
  rintro as ⟨hLength, hAll⟩
  have hMany := Reader.Takes.many (r := f.read) as fun a ha => hf a (hAll a ha)
  exact (word_exact as.length hLength).bind hMany

theorem unzigzag_zigzag (n : Int) : unzigzag (zigzag n) = n := by
  rw [zigzag]
  split
  · rw [unzigzag, if_pos (by omega)]
    omega
  · rw [unzigzag, if_neg (by omega)]
    omega

theorem zigzag_toInt_lt (n : Int64) : zigzag n.toInt < UInt64.size := by
  have hLow := n.le_toInt
  have hHigh := n.toInt_lt
  have hSize : UInt64.size = 18446744073709551616 := rfl
  rw [zigzag, hSize]
  split <;> omega

theorem int64_exact : int64.Exact fun _ => True := by
  have hInverse (n : Int64) : Int64.ofInt (unzigzag (zigzag n.toInt)) = n := by
    rw [unzigzag_zigzag, Int64.ofInt_toInt]
  exact (word_exact.map hInverse).mono fun n _ => zigzag_toInt_lt n

end Format

end BlockMachine
