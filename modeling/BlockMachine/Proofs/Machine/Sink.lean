import BlockMachine.Machine.Sink

/-!
# Writing to sinks
Writing everything takes all bytes that there is room for, in order, and fails exactly when some
are left over.
-/

namespace BlockMachine.Sink
set_option autoImplicit false

theorem after_nil (s : Sink) : s.after [] = s := by
  cases s
  simp [after]

theorem length_kept (s : Sink) : s.kept.length = s.taken.length := List.length_reverse

theorem kept_after (s : Sink) (more : List UInt8) : (s.after more).kept = s.kept ++ more.reverse := by
  rw [kept, kept, after, List.reverse_append]

theorem take_kept_after {s : Sink} {c : Nat} (hLe : s.taken.length ≤ c) (bytes : List UInt8) :
    (s.after bytes.reverse).kept.take c = s.kept ++ bytes.take (c - s.taken.length) := by
  have hAll : s.kept.take c = s.kept := List.take_of_length_le (s.length_kept ▸ hLe)
  rw [kept_after, List.reverse_reverse, List.take_append, length_kept, hAll]

theorem after_after (s : Sink) (more newer : List UInt8) :
    (s.after more).after newer = s.after (newer ++ more) := by
  have hRoom : (s.room.map (· - more.length)).map (· - newer.length) =
      s.room.map (· - (newer ++ more).length) := by
    rw [Option.map_map, List.length_append, Nat.add_comm]
    congr 1
    funext r
    exact Nat.sub_sub r more.length newer.length
  simp only [after, hRoom, List.append_assoc]

theorem fits_of_after {s : Sink} {more : List UInt8} {n : Nat} (h : s.Fits (n + more.length)) :
    (s.after more).Fits n := by
  intro r hr
  obtain ⟨room, hRoom, rfl⟩ := Option.map_eq_some_iff.mp hr
  have hLe := h room hRoom
  omega

/-- One write takes all that fits, unless that is nothing of something. -/
theorem write_eq_ok (s : Sink) (bytes : List UInt8)
    (h : s.fitting bytes.length ≠ 0 ∨ bytes = [] ∨ s.whenFull = .takeNothing) :
    s.write bytes = .ok (s.fitting bytes.length,
      s.after (bytes.take (s.fitting bytes.length)).reverse) := by
  have hTake : (bytes.take (s.fitting bytes.length)).length = s.fitting bytes.length := by
    rw [List.length_take, fitting]
    cases s.room <;> simp
  have hNone : s.refusal? bytes = none := by
    rw [refusal?]
    cases hFull : s.whenFull with
    | takeNothing => rfl
    | fail reason =>
      refine if_neg ?_
      rintro ⟨hNothing, hSome⟩
      rcases h with h | h | h
      · exact h hNothing
      · exact hSome h
      · cases hFull.symm.trans h
  rw [write, hNone]
  dsimp only
  rw [after, List.reverseAux_eq, List.length_reverse, hTake]

theorem writeAll_of_fits {s : Sink} {bytes : List UInt8} (h : s.Fits bytes.length) :
    s.writeAll bytes = (none, s.after bytes.reverse) := by
  cases bytes with
  | nil => rw [writeAll, dif_pos rfl, List.reverse_nil, after_nil]
  | cons byte bytes =>
    have hFits : s.fitting (byte :: bytes).length = bytes.length + 1 := by
      rw [fitting]
      cases hRoom : s.room with
      | none => rfl
      | some r => exact Nat.min_eq_right (h r hRoom)
    have hWrite := write_eq_ok s (byte :: bytes) (.inl (by omega))
    rw [hFits, List.take_of_length_le (by simp)] at hWrite
    rw [writeAll, dif_neg (List.cons_ne_nil byte bytes), hWrite]
    dsimp only
    rw [List.drop_of_length_le (by simp), writeAll, dif_pos rfl]

theorem writeAll_of_no_room {s : Sink} {bytes : List UInt8} (hRoom : s.room = some 0)
    (hBytes : bytes ≠ []) : s.writeAll bytes = (some s.whenFull.reason, s) := by
  have hFits : s.fitting bytes.length = 0 := by
    rw [fitting, hRoom]
    exact Nat.zero_min _
  rw [writeAll, dif_neg hBytes]
  cases hFull : s.whenFull with
  | fail reason =>
    have hRefusal : s.refusal? bytes = some reason := by
      rw [refusal?, hFull]
      exact if_pos ⟨hFits, hBytes⟩
    rw [write, hRefusal]
    rfl
  | takeNothing =>
    have hWrite := write_eq_ok s bytes (.inr (.inr hFull))
    rw [hFits, List.take_zero, List.reverse_nil, after_nil] at hWrite
    rw [hWrite]
    rfl

theorem writeAll_of_over {s : Sink} {bytes : List UInt8} {r : Nat} (hRoom : s.room = some r)
    (hOver : r < bytes.length) :
    s.writeAll bytes = (some s.whenFull.reason, s.after (bytes.take r).reverse) := by
  have hBytes : bytes ≠ [] := by
    rintro rfl
    exact Nat.not_lt_zero r hOver
  cases r with
  | zero => rw [writeAll_of_no_room hRoom hBytes, List.take_zero, List.reverse_nil, after_nil]
  | succ k =>
    have hFits : s.fitting bytes.length = k + 1 := by
      rw [fitting, hRoom]
      exact Nat.min_eq_left (Nat.le_of_lt hOver)
    have hWrite := write_eq_ok s bytes (.inl (by omega))
    rw [hFits] at hWrite
    have hLeft : bytes.drop (k + 1) ≠ [] := by
      rw [ne_eq, List.drop_eq_nil_iff]
      omega
    have hNoRoom : (s.after (bytes.take (k + 1)).reverse).room = some 0 := by
      rw [after, hRoom, List.length_reverse, List.length_take, Option.map_some]
      exact congrArg some (by omega)
    rw [writeAll, dif_neg hBytes, hWrite]
    dsimp only
    rw [writeAll_of_no_room hNoRoom hLeft]
    rfl

structure Unlimited (s : Sink) : Prop where
  room : s.room = none
  flushFails : s.flushFails = false

theorem Unlimited.fits {s : Sink} (h : s.Unlimited) (n : Nat) : s.Fits n := by
  intro r hr
  rw [h.room] at hr
  cases hr

theorem Unlimited.after {s : Sink} (h : s.Unlimited) (more : List UInt8) :
    (s.after more).Unlimited := by
  refine ⟨?_, h.flushFails⟩
  rw [Sink.after, h.room]
  rfl

theorem flush_of_unlimited {s : Sink} (h : s.Unlimited) : s.flush = none := by
  rw [flush, h.flushFails]
  rfl

theorem writeAll_of_unlimited {s : Sink} (h : s.Unlimited) (bytes : List UInt8) :
    ∃ after, s.writeAll bytes = (none, after) ∧ after.Unlimited ∧
      after.kept = s.kept ++ bytes := by
  refine ⟨s.after bytes.reverse, writeAll_of_fits (h.fits bytes.length), h.after _, ?_⟩
  rw [kept_after, List.reverse_reverse]

end BlockMachine.Sink
