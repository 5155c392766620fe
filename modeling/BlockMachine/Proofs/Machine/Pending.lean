import BlockMachine.Proofs.Machine.Safety
import BlockMachine.Proofs.Machine.Transition

/-!
# Frames that are left
What is pending on the host when a run is over. A run that has begun leaves nothing behind, however
it ends. A program that does not verify is refused before the run begins, and its refusal leaves
the frames where they are.
-/

namespace BlockMachine.Machine
set_option autoImplicit false

variable {p : Program} {limits : Limits} {s t : State}

theorem pending_of_halt (h : step p limits s = .halt t none) : t.host.pending = [] := by
  obtain ⟨rfl, -, hPending⟩ := halt_of_success h
  exact hPending

theorem pending_of_iterate {fuel : Nat} (h : iterate p limits fuel s = some (t, none)) :
    t.host.pending = [] := by
  obtain ⟨n, last, -, hStep⟩ := Halts.of_iterate h
  exact pending_of_halt hStep

theorem conclude_pending {failure : Option Failure} (h : failure = none → s.host.pending = []) :
    (conclude s failure).host.pending = [] := by
  cases failure with
  | some f => rfl
  | none =>
    rw [conclude]
    split
    · exact h rfl
    · exact h rfl

theorem runFrom_pending {fuel : Nat} {entry : CodeBlock} {h : Host} {report : Report}
    (hRun : runFrom fuel p limits entry h = some report) : report.host.pending = [] := by
  rw [runFrom] at hRun
  split at hRun
  · cases hRun
    rfl
  · obtain ⟨⟨t, failure⟩, hIterate, hReport⟩ := Option.map_eq_some_iff.mp hRun
    subst hReport
    apply conclude_pending
    intro hNone
    subst hNone
    exact pending_of_iterate hIterate

/-- Once a verified program has run, nothing is pending, whatever was pending before and however
the run ended. A program with a defect is refused, and the host stays as it was. -/
theorem run_pending {fuel : Nat} {h : Host} {report : Report}
    (hRun : run fuel p limits h = some report) :
    (p.verify = .ok () → report.host.depth = 0) ∧
    ∀ d, p.verify = .error d →
      report.result = .error { fault := .internal d.message } ∧ report.host = h := by
  constructor
  · intro hVerify
    obtain ⟨entry, hEntry⟩ := Program.exists_block? ((p.verify_eq_ok_iff).mp hVerify).entry_lt
    rw [run_of_entry hVerify hEntry] at hRun
    rw [Host.depth, runFrom_pending hRun, List.length_nil]
  · intro d hDefect
    rw [run, hDefect] at hRun
    cases hRun
    exact ⟨rfl, rfl⟩

/-- One block that does nothing. -/
def pause : Program where
  blocks := [{ label := ⟨0⟩, origin := ⟨0⟩ }]
  entry := ⟨0⟩
  slotCount := 0

/-- A sink that cannot be flushed, and two frames: a call back, and a block that the program does
not have. -/
def crowdedHost : Host where
  pending := [.continuation "first", .block { code := ⟨7⟩, scope := #[] }]
  sink := { flushFails := true }

theorem run_pending_pause :
    ∃ report, run 9 pause {} crowdedHost = some report ∧
      report.result = .error { fault := .internal "block7 does not exist" } ∧
      (pause.verify = .ok () → report.host.depth = 0) ∧
      ∀ d, pause.verify = .error d →
        report.result = .error { fault := .internal d.message } ∧ report.host = crowdedHost := by
  have hSome : ((run 9 pause {} crowdedHost).map Report.result) =
      some (.error { fault := .internal "block7 does not exist" }) := by rfl
  obtain ⟨report, hRun, hResult⟩ := Option.map_eq_some_iff.mp hSome
  exact ⟨report, hRun, hResult, run_pending hRun⟩

def hollow : Program where
  blocks := []
  entry := ⟨0⟩
  slotCount := 0

/-- A frame that is pending when a program is refused stays pending, and the next run on the host
calls it. -/
theorem refused_run_keeps_frames :
    ¬ (∀ (fuel : Nat) (p : Program) (limits : Limits) (h : Host) (report : Report),
      run fuel p limits h = some report → report.host.depth = 0) ∧
    ∃ refused later, run 1 hollow {} { pending := [.continuation "left over"] } = some refused ∧
      run 9 pause {} refused.host = some later ∧ later.called = ["left over"] := by
  constructor
  · intro hAll
    have hDepth := hAll 1 hollow {} { pending := [.continuation "left over"] } _ rfl
    cases hDepth
  · exact ⟨_, _, rfl, rfl, rfl⟩

end BlockMachine.Machine
