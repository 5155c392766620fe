import BlockMachine.Proofs.Machine.Blame
import BlockMachine.Proofs.Machine.Session

/-!
# The step counter
What the counter of a machine says once a run is over. It is set back when a run begins, and counts
every instruction that is reached; the one that the step limit refuses is reached as well, but it is
not carried out. So the counter is exact unless the limit ended the run, and one too high if it did.
-/

namespace BlockMachine.Machine
set_option autoImplicit false

variable {p : Program} {limits : Limits} {s t : State} {failure : Option Failure} {fuel m : Nat}

/-- The counter stands at the number of steps after a run that has carried out a number of
instructions: at one more, if the run was ended by the limit, and at the same otherwise. -/
structure Counted (limits : Limits) (result : Except Failure Unit) (steps carried : Nat) :
    Prop where
  within : ∀ m, limits.maxSteps = some m → carried ≤ m
  unrefused : (∀ f k, result = .error f → f.fault ≠ .stepLimit k) → steps = carried
  refused : ∀ f k, result = .error f → f.fault = .stepLimit k →
    limits.maxSteps = some k ∧ carried = k ∧ steps = k + 1

theorem ne_stepLimit_of_isInternal {fault : Fault Slot} (h : fault.isInternal = true) (k : Nat) :
    fault ≠ .stepLimit k := by
  rintro rfl
  cases h

theorem ne_stepLimit_of_blamed {h : Host} {scope : Scope} {i : Instr} {fault : Fault Slot}
    (hBlamed : i.Blamed h scope fault) (k : Nat) : fault ≠ .stepLimit k := by
  rintro rfl
  cases hBlamed

theorem carriedOut?_of_over {a : Activation} {b : CodeBlock} {i : Instr} {fault : Fault Slot}
    (hAt : s.At p a b (some i)) (hOver : overLimit limits (s.steps + 1) = some fault) :
    carriedOut? p limits s = none := by
  simp only [carriedOut?, hAt.running, hAt.block, hAt.instr, hOver, Option.bind_eq_bind,
    Option.bind_some, Option.isNone_some, Bool.false_eq_true, if_false]

theorem carriedOut?_le (hMax : limits.maxSteps = some m) (hs : s.steps ≤ m) :
    s.steps + (carriedOut? p limits s).toList.length ≤ m := by
  obtain ⟨a, b, i, hAt⟩ | hIdle := at_or_idle p s
  · cases hLimit : overLimit limits (s.steps + 1) with
    | some fault =>
      rw [carriedOut?_of_over hAt hLimit]
      exact hs
    | none =>
      rw [carriedOut?_of_within hAt hLimit]
      exact (overLimit_eq_none_iff limits _).mp hLimit m hMax
  · rw [carriedOut?_of_idle hIdle]
    exact hs

theorem carried_le (hMax : limits.maxSteps = some m) (hs : s.steps ≤ m) (fuel : Nat) :
    s.steps + carried p limits fuel s ≤ m := by
  induction fuel generalizing s with
  | zero => exact hs
  | succ fuel ih =>
    have hOne : s.steps + (carriedOut? p limits s).toList.length ≤ m := carriedOut?_le hMax hs
    cases hStep : step p limits s with
    | next t =>
      have hSteps := steps_of_next hStep
      have hRest := ih (hSteps ▸ hOne)
      rw [carried_of_next hStep]
      omega
    | halt t failure =>
      rw [carried_of_halt hStep]
      exact hOne

/-- The last transition counts what it carries out, or the one instruction that it refuses. -/
theorem steps_of_halt (hStep : step p limits s = .halt t failure) :
    (t.steps = s.steps + (carriedOut? p limits s).toList.length ∧
      ∀ f k, failure = some f → f.fault ≠ .stepLimit k) ∨
    ∃ f k, failure = some f ∧ f.fault = .stepLimit k ∧ limits.maxSteps = some k ∧ k < t.steps ∧
      t.steps = s.steps + 1 ∧ carriedOut? p limits s = none := by
  obtain ⟨a, b, i, hAt⟩ | hIdle := at_or_idle p s
  · obtain ⟨hSteps, fault, rfl, hOver | ⟨hLimit, hCause⟩⟩ := step_at_halt hAt hStep
    · right
      obtain ⟨k, hMax, hLt, rfl⟩ := overLimit_eq_some_iff.mp hOver
      exact ⟨_, k, rfl, rfl, hMax, hSteps ▸ hLt, hSteps, carriedOut?_of_over hAt hOver⟩
    · left
      rw [carriedOut?_of_within hAt hLimit]
      refine ⟨hSteps, ?_⟩
      rintro f k ⟨⟩
      exact hCause.elim (ne_stepLimit_of_isInternal · k) (ne_stepLimit_of_blamed · k)
  · left
    rw [carriedOut?_of_idle hIdle]
    obtain ⟨hSteps, hInternal⟩ := halt_of_idle hIdle hStep
    exact ⟨hSteps, fun f k hf => ne_stepLimit_of_isInternal (hInternal f hf) k⟩

theorem iterate_steps (h : iterate p limits fuel s = some (t, failure)) :
    (t.steps = s.steps + carried p limits fuel s ∧
      ∀ f k, failure = some f → f.fault ≠ .stepLimit k) ∨
    ∃ f k, failure = some f ∧ f.fault = .stepLimit k ∧ limits.maxSteps = some k ∧ k < t.steps ∧
      t.steps = s.steps + carried p limits fuel s + 1 := by
  induction fuel generalizing s with
  | zero => cases h
  | succ fuel ih =>
    rw [iterate] at h
    cases hStep : step p limits s with
    | next u =>
      rw [hStep] at h
      rw [carried_of_next hStep, ← Nat.add_assoc, ← steps_of_next hStep]
      exact ih h
    | halt u failure =>
      rw [hStep] at h
      cases h
      rw [carried_of_halt hStep]
      refine (steps_of_halt hStep).imp_right ?_
      rintro ⟨f, k, hf, hFault, hMax, hLt, hSteps, hNone⟩
      rw [hNone]
      exact ⟨f, k, hf, hFault, hMax, hLt, hSteps⟩

theorem fault_of_conclude {f : Failure} (h : (conclude s failure).result = .error f) :
    failure = some f ∨ failure = none ∧ ∃ reason, f.fault = .output reason := by
  cases failure with
  | some g =>
    cases h
    exact .inl rfl
  | none =>
    right
    cases hFlush : s.host.sink.flush with
    | some reason =>
      rw [conclude_of_unflushed s hFlush] at h
      cases h
      exact ⟨rfl, reason, rfl⟩
    | none =>
      rw [conclude_of_flushed s hFlush] at h
      cases h

theorem conclude_counted (hs : s.steps = 0) (h : iterate p limits fuel s = some (t, failure)) :
    Counted limits (conclude t failure).result t.steps (carried p limits fuel s) := by
  have hWithin : ∀ m, limits.maxSteps = some m → carried p limits fuel s ≤ m := by
    intro m hMax
    have hLe := carried_le (p := p) hMax (by omega : s.steps ≤ m) fuel
    omega
  rcases iterate_steps h with ⟨hSteps, hOther⟩ | ⟨f, k, rfl, hFault, hMax, hLt, hSteps⟩
  · refine ⟨hWithin, fun _ => by omega, fun f k hf hFault => ?_⟩
    rcases fault_of_conclude hf with hSome | ⟨-, reason, hOutput⟩
    · exact absurd hFault (hOther f k hSome)
    · cases hOutput.symm.trans hFault
  · refine ⟨hWithin, fun hOther => absurd hFault (hOther f k rfl), ?_⟩
    rintro g l ⟨⟩ hSame
    cases hFault.symm.trans hSame
    have hLe := hWithin k hMax
    exact ⟨hMax, by omega, by omega⟩

theorem counted_zero {f : Failure} (hFault : ∀ k, f.fault ≠ .stepLimit k) :
    Counted limits (.error f) 0 0 where
  within m _ := Nat.zero_le m
  unrefused _ := rfl
  refused := by
    rintro g k ⟨⟩ hSame
    exact absurd hSame (hFault k)

theorem run_counted {h : Host} {report : Report} (hRun : run fuel p limits h = some report) :
    Counted limits report.result report.steps (runCarried fuel p limits h) := by
  cases hVerify : p.verify with
  | error d =>
    rw [run, hVerify] at hRun
    cases hRun
    rw [runCarried, hVerify]
    exact counted_zero (by rintro k ⟨⟩)
  | ok u =>
    obtain ⟨entry, hEntry⟩ := Program.exists_block? ((p.verify_eq_ok_iff).mp hVerify).entry_lt
    rw [run_of_entry hVerify hEntry] at hRun
    rw [runCarried_of_entry hVerify hEntry]
    by_cases hCrowded : limits.maxFrames ≤ h.depth
    · rw [runFrom_of_crowded hCrowded] at hRun
      cases hRun
      rw [if_pos hCrowded]
      exact counted_zero (by rintro k ⟨⟩)
    · rw [runFrom_of_room (Nat.lt_of_not_le hCrowded)] at hRun
      obtain ⟨⟨t, failure⟩, hIterate, rfl⟩ := Option.map_eq_some_iff.mp hRun
      rw [if_neg hCrowded, conclude_steps]
      exact conclude_counted rfl hIterate

/-- Under a limit that leaves room for one more, a counter of 64 bits holds what is counted. -/
theorem steps_lt_of_limit {h : Host} {report : Report} (hMax : limits.maxSteps = some m)
    (hRoom : m + 1 < 2 ^ 64) (hRun : run fuel p limits h = some report) : report.steps < 2 ^ 64 := by
  have hCounted := run_counted hRun
  have hCarried := hCounted.within m hMax
  by_cases hLimit : ∃ f k, report.result = .error f ∧ f.fault = .stepLimit k
  · obtain ⟨f, k, hf, hFault⟩ := hLimit
    obtain ⟨-, hLast, hSteps⟩ := hCounted.refused f k hf hFault
    omega
  · have hSteps := hCounted.unrefused fun f k hf hFault => hLimit ⟨f, k, hf, hFault⟩
    omega

/-- Whatever ran before, once a run is over the machine stands at the number of instructions that
this run has carried out, and that is within the limit. Only if the limit ended the run, it stands
at one more, for the instruction that was refused. -/
theorem Session.perform_counted {s t : Session} {reply : Reply}
    (h : s.perform fuel (.run p) = some (reply, t)) :
    ∃ account, reply = .ran account ∧ account.steps = t.steps ∧
      Counted s.limits account.result t.steps (runCarried fuel p s.limits s.host) := by
  rw [perform_run] at h
  obtain ⟨report, hRun, hReply⟩ := Option.map_eq_some_iff.mp h
  cases hReply
  exact ⟨_, rfl, rfl, run_counted hRun⟩

/-- One block that goes back to its beginning. -/
def spin : Program where
  blocks := [{ label := ⟨0⟩, origin := ⟨0⟩, instrs := [.jump ⟨0⟩], lines := [none] }]
  entry := ⟨0⟩
  slotCount := 0

/-- A machine with a limit of one instruction, that has run something else before. -/
def spent : Session where
  limits := { maxSteps := some 1 }
  steps := 7
  host := {}

theorem Session.perform_counted_spin :
    ∃ reply t, spent.perform 9 (.run spin) = some (reply, t) ∧ t.steps = 2 ∧
      ∃ account, reply = .ran account ∧ account.steps = t.steps ∧
        Counted spent.limits account.result t.steps (runCarried 9 spin spent.limits spent.host) :=
  ⟨_, _, rfl, rfl, perform_counted rfl⟩

/-- The instruction that is one too many is counted all the same. -/
theorem refused_instr_counted :
    ¬ (∀ (fuel : Nat) (p : Program) (s t : Session) (reply : Reply),
      s.perform fuel (.run p) = some (reply, t) → t.steps = runCarried fuel p s.limits s.host) ∧
    ∃ reply t, spent.perform 9 (.run spin) = some (reply, t) ∧
      spent.limits.maxSteps = some 1 ∧ 1 < t.steps := by
  constructor
  · intro hAll
    have hSame := hAll 9 spin spent _ _ rfl
    have hCarried : runCarried 9 spin spent.limits spent.host = 1 := rfl
    cases hSame.trans hCarried
  · exact ⟨_, _, rfl, rfl, Nat.one_lt_two⟩

end BlockMachine.Machine
