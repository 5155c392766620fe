import BlockMachine.Proofs.Image.Exact

/-!
# Normal formats
What comes of reading any bytes at all. A reader settles its verdicts when each rests on the bytes
it took, so that later bytes change none of them but the one that bytes are missing. A format is
normal when its reader settles, and what it reads fits and is written in no more bytes than were
taken for it. Normal formats are closed under the ways formats are put together.
-/

namespace BlockMachine
set_option autoImplicit false

variable {α β : Type}

namespace Reader

theorem exists_of_bind_ok {r : Reader α} {f : α → Reader β} {bs rest : List UInt8} {b : β}
    (h : (r >>= f) bs = .ok (b, rest)) : ∃ a mid, r bs = .ok (a, mid) ∧ f a mid = .ok (b, rest) := by
  cases hr : r bs with
  | error e =>
    rw [bind_error hr] at h
    cases h
  | ok p =>
    obtain ⟨a, mid⟩ := p
    rw [bind_ok hr] at h
    exact ⟨a, mid, rfl, h⟩

/-- A value is read off exactly the bytes in front of the rest, and a refusal for another reason
than the end of the input stands whatever more there is. -/
structure Settles (r : Reader α) : Prop where
  takes : ∀ bs a rest, r bs = .ok (a, rest) → ∃ taken, bs = taken ++ rest ∧ Takes r taken a
  refuses : ∀ bs e, r bs = .error e → e ≠ .endOfInput → ∀ more, r (bs ++ more) = .error e

namespace Settles

theorem pure (a : α) : Settles (Pure.pure a : Reader α) where
  takes bs _ _ h := by
    cases h
    exact ⟨[], rfl, Takes.pure a⟩
  refuses _ _ h := by cases h

theorem throw (e : Malformed) : Settles (MonadExcept.throw e : Reader α) where
  takes _ _ _ h := by cases h
  refuses _ _ h _ _ := by
    cases h
    rfl

theorem byte : Settles Reader.byte where
  takes bs b rest h := by
    cases bs with
    | nil => cases h
    | cons c bs =>
      cases h
      exact ⟨[b], rfl, Takes.byte b⟩
  refuses bs e h hEnd := by
    cases bs with
    | nil =>
      cases h
      exact absurd rfl hEnd
    | cons c bs => cases h

theorem bind {r : Reader α} {f : α → Reader β} (hr : Settles r) (hf : ∀ a, Settles (f a)) :
    Settles (r >>= f) where
  takes bs b rest h := by
    obtain ⟨a, mid, hFirst, hSecond⟩ := exists_of_bind_ok h
    obtain ⟨taken, rfl, hTaken⟩ := hr.takes bs a mid hFirst
    obtain ⟨more, rfl, hMore⟩ := (hf a).takes mid b rest hSecond
    exact ⟨taken ++ more, (List.append_assoc taken more rest).symm, hTaken.bind hMore⟩
  refuses bs e h hEnd more := by
    cases hFirst : r bs with
    | error e' =>
      rw [bind_error hFirst] at h
      cases h
      exact bind_error (hr.refuses bs e hFirst hEnd more)
    | ok p =>
      obtain ⟨a, mid⟩ := p
      rw [bind_ok hFirst] at h
      obtain ⟨taken, rfl, hTaken⟩ := hr.takes bs a mid hFirst
      rw [List.append_assoc, bind_ok (hTaken.read_append (mid ++ more))]
      exact (hf a).refuses mid e h hEnd more

theorem map {r : Reader α} (h : Settles r) (f : α → β) : Settles (f <$> r) :=
  h.bind fun a => .pure (f a)

theorem many {r : Reader α} (h : Settles r) (n : Nat) : Settles (Reader.many r n) := by
  induction n with
  | zero => exact .pure []
  | succ n ih => exact h.bind fun a => ih.bind fun as => .pure (a :: as)

end Settles

/-- What is read has the property, and its cost is paid for by the bytes taken and a credit. -/
def Affords (r : Reader α) (credit : Nat) (P : α → Prop) (cost : α → Nat) : Prop :=
  ∀ bs a rest, r bs = .ok (a, rest) → P a ∧ cost a + rest.length ≤ bs.length + credit

namespace Affords

variable {r : Reader α} {credit : Nat} {P : α → Prop} {Q : β → Prop} {c : α → Nat} {d : β → Nat}

theorem pure {a : α} (hP : P a) (hCost : c a ≤ credit) :
    Affords (Pure.pure a : Reader α) credit P c := by
  intro bs _ _ h
  cases h
  exact ⟨hP, by omega⟩

theorem throw {e : Malformed} : Affords (MonadExcept.throw e : Reader α) credit P c := by
  intro _ _ _ h
  cases h

theorem byte : Affords Reader.byte 0 (fun _ => True) fun _ => 1 := by
  intro bs b rest h
  cases bs with
  | nil => cases h
  | cons c bs =>
    cases h
    exact ⟨trivial, Nat.le_of_eq (Nat.add_comm 1 _)⟩

/-- What a first reader's value costs is the credit of the reader that goes on from it. -/
theorem bind {f : α → Reader β} (hr : Affords r credit P c)
    (hf : ∀ a, P a → Affords (f a) (c a) Q d) : Affords (r >>= f) credit Q d := by
  intro bs b rest h
  obtain ⟨a, mid, hFirst, hSecond⟩ := exists_of_bind_ok h
  obtain ⟨ha, hPaid⟩ := hr bs a mid hFirst
  obtain ⟨hb, hPaidOn⟩ := hf a ha mid b rest hSecond
  exact ⟨hb, by omega⟩

theorem map {g : α → β} (h : Affords r credit P c) (hg : ∀ a, P a → Q (g a) ∧ d (g a) ≤ c a) :
    Affords (g <$> r) credit Q d := h.bind fun a ha => .pure (hg a ha).1 (hg a ha).2

theorem raise (h : Affords r credit P c) (more : Nat) :
    Affords r (credit + more) P fun a => c a + more := by
  intro bs a rest hRead
  obtain ⟨ha, hPaid⟩ := h bs a rest hRead
  refine ⟨ha, ?_⟩
  dsimp only
  omega

theorem many {write : α → List UInt8} (h : Affords r 0 P fun a => (write a).length) (n : Nat) :
    Affords (Reader.many r n) 0 (fun as => as.length = n ∧ ∀ a ∈ as, P a)
      fun as => (as.flatMap write).length := by
  induction n with
  | zero => exact .pure ⟨rfl, fun _ ha => absurd ha List.not_mem_nil⟩ (Nat.le_refl 0)
  | succ n ih =>
    apply h.bind
    intro a ha
    have hRest := ih.raise (write a).length
    rw [Nat.zero_add] at hRest
    apply hRest.bind
    rintro as ⟨hLength, hAll⟩
    refine .pure ⟨congrArg (· + 1) hLength, List.forall_mem_cons.mpr ⟨ha, hAll⟩⟩ ?_
    apply Nat.le_of_eq
    rw [List.flatMap_cons, List.length_append, Nat.add_comm]

end Affords

end Reader

namespace Format

theorem length_writeVarint_pos (more n : Nat) : 0 < (writeVarint more n).length := by
  cases more with
  | zero => exact Nat.zero_lt_one
  | succ more =>
    rw [writeVarint]
    split
    · exact Nat.zero_lt_one
    · exact Nat.succ_pos _

theorem length_writeVarint_mono (more : Nat) {m n : Nat} (h : m ≤ n) :
    (writeVarint more m).length ≤ (writeVarint more n).length := by
  induction more generalizing m n with
  | zero => exact Nat.le_refl 1
  | succ more ih =>
    by_cases hm : m < 128
    · have hOne : (writeVarint (more + 1) m).length = 1 := by rw [writeVarint, if_pos hm]; rfl
      rw [hOne]
      exact length_writeVarint_pos (more + 1) n
    · have hRest := ih (Nat.div_le_div_right (c := 128) h)
      rw [writeVarint, if_neg hm, writeVarint, if_neg (by omega), List.length_cons,
        List.length_cons]
      omega

/-- Reading settles; what is read fits, and is written in no more bytes than were taken. -/
structure Normal (f : Format α) (Fits : α → Prop) : Prop where
  settles : f.read.Settles
  affords : f.read.Affords 0 Fits fun a => (f.write a).length

namespace Normal

variable {f : Format α} {P : α → Prop} {Q : β → Prop}

theorem spend (h : f.Normal P) (credit : Nat) :
    f.read.Affords credit P fun a => (f.write a).length + credit := by
  have hRaised := h.affords.raise credit
  rwa [Nat.zero_add] at hRaised

theorem mono {R : α → Prop} (h : f.Normal P) (hPR : ∀ a, P a → R a) : f.Normal R where
  settles := h.settles
  affords bs a rest hRead :=
    have ⟨ha, hPaid⟩ := h.affords bs a rest hRead
    ⟨hPR a ha, hPaid⟩

theorem map (h : f.Normal P) {decode : α → β} {encode : β → α}
    (hDecode : ∀ a, P a → Q (decode a) ∧
      (f.write (encode (decode a))).length ≤ (f.write a).length) :
    (f.map decode encode).Normal Q where
  settles := h.settles.map decode
  affords := h.affords.map hDecode

theorem pair {g : Format β} (hf : f.Normal P) (hg : g.Normal Q) :
    (f.pair g).Normal fun p => P p.1 ∧ Q p.2 where
  settles := hf.settles.bind fun a => hg.settles.bind fun b => .pure (a, b)
  affords := by
    apply hf.affords.bind
    intro a ha
    apply (hg.spend _).bind
    intro b hb
    refine .pure ⟨ha, hb⟩ ?_
    apply Nat.le_of_eq
    rw [Format.pair, List.length_append, Nat.add_comm]

theorem option (h : f.Normal P) : f.option.Normal fun o => ∀ a ∈ o, P a where
  settles := by
    apply Reader.Settles.byte.bind
    intro b
    split
    · exact .pure none
    · exact h.settles.bind fun a => .pure (some a)
    · exact .throw .badOption
  affords := by
    apply Reader.Affords.byte.bind
    intro b _
    split
    · exact .pure (by rintro _ ⟨⟩) (Nat.le_refl 1)
    · apply (h.spend 1).bind
      intro a ha
      refine .pure ?_ (Nat.le_refl _)
      rintro _ ⟨⟩
      exact ha
    · exact .throw

end Normal

theorem readVarint_settles (top more : Nat) : (readVarint top more).Settles := by
  induction more with
  | zero =>
    apply Reader.Settles.byte.bind
    intro b
    split
    · exact .pure b.toNat
    · exact .throw .badVarint
  | succ more ih =>
    apply Reader.Settles.byte.bind
    intro b
    split
    · exact .pure b.toNat
    · exact ih.bind fun high => .pure (b.toNat - 128 + 128 * high)

theorem readVarint_affords (top more : Nat) :
    (readVarint top more).Affords 0 (· < (top + 1) * Nat.pow 128 more)
      fun n => (writeVarint more n).length := by
  induction more with
  | zero =>
    apply Reader.Affords.byte.bind
    intro b _
    split
    · rename_i hSmall
      have hLt : b.toNat < (top + 1) * Nat.pow 128 0 := by
        simp only [Nat.pow_eq, Nat.pow_zero, Nat.mul_one]
        omega
      exact .pure hLt (Nat.le_refl 1)
    · exact .throw
  | succ more ih =>
    have hPow : (top + 1) * Nat.pow 128 (more + 1) = 128 * ((top + 1) * Nat.pow 128 more) := by
      simp only [Nat.pow_eq, Nat.pow_succ]
      rw [← Nat.mul_assoc, Nat.mul_comm]
    have hPos : 0 < (top + 1) * Nat.pow 128 more :=
      Nat.mul_pos (Nat.succ_pos top) (Nat.pow_pos (by decide))
    rw [hPow]
    apply Reader.Affords.byte.bind
    intro b _
    split
    · rename_i hSmall
      refine .pure (by omega) ?_
      rw [writeVarint, if_pos hSmall]
      exact Nat.le_refl 1
    · rename_i hLarge
      have hByte := b.toNat_lt
      have hHigh := ih.raise 1
      rw [Nat.zero_add] at hHigh
      apply hHigh.bind
      intro high hFits
      refine .pure (by omega) ?_
      have hDiv : (b.toNat - 128 + 128 * high) / 128 = high := by omega
      rw [writeVarint]
      split
      · exact Nat.le_add_left 1 _
      · rw [hDiv]
        exact Nat.le_refl _

theorem varint_normal (more top : Nat) :
    (varint more top).Normal (· < (top + 1) * Nat.pow 128 more) :=
  ⟨readVarint_settles top more, readVarint_affords top more⟩

theorem word_normal : word.Normal (· < UInt64.size) := varint_normal 9 1

theorem halfWord_normal : halfWord.Normal (· < UInt32.size) := varint_normal 4 15

theorem byte_normal : byte.Normal fun _ => True := ⟨.byte, .byte⟩

theorem bool_normal : bool.Normal fun _ => True where
  settles := by
    apply Reader.Settles.byte.bind
    intro b
    split
    · exact .pure false
    · exact .pure true
    · exact .throw .badBool
  affords := by
    apply Reader.Affords.byte.bind
    intro b _
    split
    · exact .pure trivial (Nat.le_refl 1)
    · exact .pure trivial (Nat.le_refl 1)
    · exact .throw

theorem Normal.list {f : Format α} {P : α → Prop} (h : f.Normal P) :
    f.list.Normal fun as => as.length < UInt64.size ∧ ∀ a ∈ as, P a where
  settles := word_normal.settles.bind h.settles.many
  affords := by
    apply word_normal.affords.bind
    intro n hn
    have hMany := (Reader.Affords.many h.affords n).raise (word.write n).length
    rw [Nat.zero_add] at hMany
    intro bs as rest hRead
    obtain ⟨⟨hLength, hAll⟩, hPaid⟩ := hMany bs as rest hRead
    subst hLength
    refine ⟨⟨hn, hAll⟩, ?_⟩
    dsimp only [Format.list] at hPaid ⊢
    rw [List.length_append]
    omega

theorem zigzag_unzigzag (n : Nat) : zigzag (unzigzag n) = n := by
  rw [unzigzag]
  split
  · rw [zigzag, if_pos (by omega)]
    omega
  · rw [zigzag, if_neg (by omega)]
    omega

theorem int64_normal : int64.Normal fun _ => True := by
  apply word_normal.map
  intro n hn
  have hSize : UInt64.size = 18446744073709551616 := rfl
  have hInt : (Int64.ofInt (unzigzag n)).toInt = unzigzag n := by
    apply Int64.toInt_ofInt_of_le
    · rw [unzigzag]
      split <;> omega
    · rw [unzigzag]
      split <;> omega
  refine ⟨trivial, ?_⟩
  apply Nat.le_of_eq
  rw [hInt, zigzag_unzigzag]

end Format

end BlockMachine
