import BlockMachine.Machine.Capacity
import BlockMachine.Proofs.Machine.Termination

/-!
# Runs in limited room
A run either returns what it returns with all the room it asks for, or comes to a block with a
larger scope than a vector can hold. So it ends when the other one does, and where all blocks can be
entered there is no telling the two apart.
-/

namespace BlockMachine.Machine
set_option autoImplicit false

variable {p : Program} {limits : Limits} {h : Host} {fuel : Nat} {s t last : State}
  {failure : Option Failure} {report : Report} {ending : Ending} {entry : CodeBlock}

section Loop

theorem endFrom_of_overflow {lost : State} (h : overflow? p limits s = some lost) :
    endFrom p limits (fuel + 1) s = some (.overflowed lost) := by rw [endFrom, h]

theorem endFrom_of_next (h : overflow? p limits s = none) (hStep : step p limits s = .next t) :
    endFrom p limits (fuel + 1) s = endFrom p limits fuel t := by
  rw [endFrom, h]
  dsimp only
  rw [hStep]

theorem endFrom_of_halt (h : overflow? p limits s = none)
    (hStep : step p limits s = .halt t failure) :
    endFrom p limits (fuel + 1) s = some (.returned (conclude t failure)) := by
  rw [endFrom, h]
  dsimp only
  rw [hStep]

theorem endFrom_of_iterate (h : iterate p limits fuel s = some (last, failure)) :
    endFrom p limits fuel s = some (.returned (conclude last failure)) ∨
      ∃ lost, endFrom p limits fuel s = some (.overflowed lost) := by
  induction fuel generalizing s with
  | zero => cases h
  | succ fuel ih =>
    cases hOver : overflow? p limits s with
    | some lost => exact .inr ⟨lost, endFrom_of_overflow hOver⟩
    | none =>
      rw [iterate] at h
      cases hStep : step p limits s with
      | next t =>
        rw [hStep] at h
        rw [endFrom_of_next hOver hStep]
        exact ih h
      | halt t failure =>
        rw [hStep] at h
        cases h
        exact .inl (endFrom_of_halt hOver hStep)

theorem iterate_of_endFrom (h : endFrom p limits fuel s = some (.returned report)) :
    ∃ last failure, iterate p limits fuel s = some (last, failure) ∧
      report = conclude last failure := by
  induction fuel generalizing s with
  | zero => cases h
  | succ fuel ih =>
    cases hOver : overflow? p limits s with
    | some lost =>
      rw [endFrom_of_overflow hOver] at h
      cases h
    | none =>
      rw [iterate]
      cases hStep : step p limits s with
      | next t =>
        rw [endFrom_of_next hOver hStep] at h
        exact ih h
      | halt t failure =>
        rw [endFrom_of_halt hOver hStep] at h
        cases h
        exact ⟨t, failure, rfl, rfl⟩

theorem passes_of_endFrom {lost : State} (h : endFrom p limits fuel s = some (.overflowed lost)) :
    ∃ n t, Passes p limits n s t ∧ overflow? p limits t = some lost := by
  induction fuel generalizing s with
  | zero => cases h
  | succ fuel ih =>
    cases hOver : overflow? p limits s with
    | some found =>
      rw [endFrom_of_overflow hOver] at h
      cases h
      exact ⟨0, s, .refl s, hOver⟩
    | none =>
      cases hStep : step p limits s with
      | next u =>
        rw [endFrom_of_next hOver hStep] at h
        obtain ⟨n, t, hPasses, hThere⟩ := ih h
        exact ⟨n + 1, t, .head hStep hPasses, hThere⟩
      | halt u failure =>
        rw [endFrom_of_halt hOver hStep] at h
        cases h

theorem enters_of_overflow {lost : State} (h : overflow? p limits s = some lost) :
    ∃ next, Enters p limits s next ∧ next ∈ p.blocks ∧ Scope.capacity < next.scopeSize ∧
      lost.host = s.host := by
  simp only [overflow?, Option.bind_eq_bind, Option.bind_eq_some_iff] at h
  obtain ⟨a, hRunning, i, hCarried, target, hTarget, next, hBlock, hLost⟩ := h
  split at hLost
  · rename_i hOver
    cases hLost
    exact ⟨next, ⟨a, i, target, hRunning, hCarried, hTarget, hBlock⟩, List.mem_of_getElem? hBlock,
      hOver.2, rfl⟩
  · cases hLost

end Loop

section Attempts

theorem attempt_of_refused (hVerify : p.verify ≠ .ok ()) :
    attempt fuel p limits h = (run fuel p limits h).map .returned := by
  rw [attempt]
  split
  · rename_i hOk hEntry
    exact absurd hOk hVerify
  · rfl

theorem attempt_of_entry (hVerify : p.verify = .ok ()) (hEntry : p.entryBlock? = some entry) :
    attempt fuel p limits h =
      if entry.Overflows #[] then some (.overflowed (start p entry h))
      else if limits.maxFrames ≤ h.depth then (run fuel p limits h).map .returned
      else endFrom p limits fuel (start p entry (h.push (.block entry.activation))) := by
  rw [attempt, hVerify, hEntry]

theorem attempt_of_run (hRun : run fuel p limits h = some report) :
    attempt fuel p limits h = some (.returned report) ∨
      ∃ s, attempt fuel p limits h = some (.overflowed s) := by
  by_cases hVerify : p.verify = .ok ()
  · obtain ⟨entry, hEntry⟩ := Program.exists_block? ((p.verify_eq_ok_iff).mp hVerify).entry_lt
    rw [attempt_of_entry hVerify hEntry]
    split_ifs with hOver hCrowded
    · exact .inr ⟨_, rfl⟩
    · rw [hRun]
      exact .inl rfl
    · rw [run_of_entry hVerify hEntry, runFrom_of_room (Nat.lt_of_not_le hCrowded)] at hRun
      obtain ⟨⟨last, failure⟩, hIterate, rfl⟩ := Option.map_eq_some_iff.mp hRun
      exact endFrom_of_iterate hIterate
  · rw [attempt_of_refused hVerify, hRun]
    exact .inl rfl

theorem run_of_attempt (hAttempt : attempt fuel p limits h = some (.returned report)) :
    run fuel p limits h = some report := by
  by_cases hVerify : p.verify = .ok ()
  · obtain ⟨entry, hEntry⟩ := Program.exists_block? ((p.verify_eq_ok_iff).mp hVerify).entry_lt
    rw [attempt_of_entry hVerify hEntry] at hAttempt
    split_ifs at hAttempt with hOver hCrowded
    · cases hAttempt
    · obtain ⟨r, hRun, hReport⟩ := Option.map_eq_some_iff.mp hAttempt
      cases hReport
      exact hRun
    · obtain ⟨last, failure, hIterate, rfl⟩ := iterate_of_endFrom hAttempt
      rw [run_of_entry hVerify hEntry, runFrom_of_room (Nat.lt_of_not_le hCrowded), hIterate]
      rfl
  · rw [attempt_of_refused hVerify] at hAttempt
    obtain ⟨r, hRun, hReport⟩ := Option.map_eq_some_iff.mp hAttempt
    cases hReport
    exact hRun

theorem exists_attempt (hRun : ∃ fuel report, run fuel p limits h = some report) :
    ∃ fuel ending, attempt fuel p limits h = some ending := by
  obtain ⟨fuel, report, hRun⟩ := hRun
  rcases attempt_of_run hRun with hReturned | ⟨s, hOver⟩
  · exact ⟨fuel, _, hReturned⟩
  · exact ⟨fuel, _, hOver⟩

/-- A machine is given up where it is about to enter a block that is too large. -/
theorem oversized_of_attempt {lost : State}
    (hAttempt : attempt fuel p limits h = some (.overflowed lost)) :
    ∃ b ∈ p.blocks, Scope.capacity < b.scopeSize ∧ (p.entryBlock? = some b ∨
      ∃ s, Visits p limits h s ∧ Enters p limits s b ∧ lost.host = s.host) := by
  by_cases hVerify : p.verify = .ok ()
  · obtain ⟨entry, hEntry⟩ := Program.exists_block? ((p.verify_eq_ok_iff).mp hVerify).entry_lt
    rw [attempt_of_entry hVerify hEntry] at hAttempt
    split_ifs at hAttempt with hOver hCrowded
    · exact ⟨entry, List.mem_of_getElem? hEntry, hOver.2, .inl hEntry⟩
    · obtain ⟨r, -, hReport⟩ := Option.map_eq_some_iff.mp hAttempt
      cases hReport
    · obtain ⟨n, s, hPasses, hThere⟩ := passes_of_endFrom hAttempt
      obtain ⟨next, hEnters, hMem, hLarge, hHost⟩ := enters_of_overflow hThere
      have hVisits : Visits p limits h s :=
        ⟨hVerify, Nat.lt_of_not_le hCrowded, entry, hEntry, hPasses.reaches (.refl _)⟩
      exact ⟨next, hMem, hLarge, .inr ⟨s, hVisits, hEnters, hHost⟩⟩
  · rw [attempt_of_refused hVerify] at hAttempt
    obtain ⟨r, -, hReport⟩ := Option.map_eq_some_iff.mp hAttempt
    cases hReport

theorem attempt_eq_run (hFits : ∀ b ∈ p.blocks, b.scopeSize ≤ Scope.capacity) :
    attempt fuel p limits h = (run fuel p limits h).map .returned := by
  have hNever (s : State) : attempt fuel p limits h ≠ some (.overflowed s) := by
    intro hOver
    obtain ⟨b, hb, hLarge, -⟩ := oversized_of_attempt hOver
    exact absurd (hFits b hb) (Nat.not_le.mpr hLarge)
  cases hRun : run fuel p limits h with
  | some report => exact (attempt_of_run hRun).resolve_right fun ⟨s, hOver⟩ => hNever s hOver
  | none =>
    cases hAttempt : attempt fuel p limits h with
    | none => rfl
    | some ending =>
      cases ending with
      | returned report => cases hRun.symm.trans (run_of_attempt hAttempt)
      | overflowed s => exact absurd hAttempt (hNever s)

end Attempts

end BlockMachine.Machine
