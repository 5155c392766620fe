import BlockMachine.Proofs.Machine.Atop
import BlockMachine.Proofs.Machine.Budget

/-!
# Output that does not fit
A run on a sink with limited room is the run on an unlimited one, cut short at the first
instruction whose output does not fit any more. Up to there the one machine is where the other is,
on top of a sink that holds less; there it writes what still fits, and fails.
-/

namespace BlockMachine
set_option autoImplicit false

theorem Instr.echo_of_output {constants : Constants} {scope : Scope} {i : Instr}
    {bytes : List UInt8} {texts : List String}
    (h : i.effect constants scope [] = .ok (.output bytes) texts) : ∃ value, i = .echo value := by
  cases i with
  | echo value => exact ⟨value, rfl⟩
  | assign result var expr | binary op result left right | constFetch result name qualified =>
    obtain ⟨v, ws, -, hStore⟩ := Outcome.bind_eq_ok_iff.mp h
    cases hStore
  | jump target => cases h
  | branch cond ifTrue ifFalse =>
    obtain ⟨v, ws, -, hTransfer⟩ := Outcome.bind_eq_ok_iff.mp h
    cases hTransfer

namespace Machine

variable {p : Program} {limits : Limits} {s t : State} {c : Nat}

def blank (sink : Sink) : State where
  host := { sink }

theorem start_atop (p : Program) (entry : CodeBlock) (h : Host) (sink : Sink) :
    (start p entry { h with sink := {} }).atop (blank sink) =
      start p entry { h with sink } := by
  rw [State.atop, start, blank]
  dsimp only
  rw [Sink.after_nil, List.append_nil]
  rfl

section Fitting

variable {fuel : Nat} {last : State} {failure : Option Failure}

theorem iterate_later (hs : s.host.sink.Unlimited)
    (h : iterate p limits fuel s = some (last, failure)) : s.host.Later last.host := by
  obtain ⟨n, t, hPasses, hStep⟩ := Halts.of_iterate h
  have hReaches := (hPasses.reaches (.refl s)).later hs
  have hHalt : t.host.Later (step p limits t).state.host := step_later (hReaches.unlimited hs)
  rw [hStep] at hHalt
  exact hReaches.trans hHalt

/-- On top of a sink that has room for all the output, the machine does what it does without. -/
theorem iterate_atop (below : State) (hs : s.host.sink.Unlimited)
    (hBelow : below.host.pending = [])
    (hFits : below.host.sink.Fits last.host.sink.taken.length)
    (h : iterate p limits fuel s = some (last, failure)) :
    iterate p limits fuel (s.atop below) = some (last.atop below, failure) := by
  induction fuel generalizing s with
  | zero => cases h
  | succ fuel ih =>
    rw [iterate] at h
    have hLater : s.host.Later (step p limits s).state.host := step_later hs
    cases hStep : step p limits s with
    | next t =>
      rw [hStep] at h hLater
      have ht : t.host.sink.Unlimited := hLater.unlimited hs
      have hLe := (iterate_later ht h).length_taken_le
      rw [iterate, step_atop_next hs hStep (hFits.mono hLe)]
      exact ih ht h
    | halt t f =>
      rw [hStep] at h
      cases h
      rw [iterate, step_atop_halt hs hBelow hStep hFits]

end Fitting

section Overrunning

theorem exists_echo_of_writes (hs : s.host.sink.Unlimited) (hStep : step p limits s = .next t)
    (hWrites : t.host.sink ≠ s.host.sink) :
    ∃ a b value bytes texts, s.At p a b (some (.echo value)) ∧
      overLimit limits (s.steps + 1) = none ∧
      (Instr.echo value).effect s.host.constants a.scope [] = .ok (.output bytes) texts ∧
      t.host.sink = s.host.sink.after bytes.reverse := by
  obtain ⟨a, b, i, hAt⟩ : ∃ a b i, s.At p a b (some i) := Classical.byContradiction fun hNone =>
    hWrites (step_idle (fun a b i hAt => hNone ⟨a, b, i, hAt⟩) hStep).2.1
  rw [step_at hAt] at hStep
  obtain ⟨hLimit, effect, texts, hEffect, hPerform⟩ := execute_next hStep
  obtain ⟨-, ⟨bytes, rfl, hWrite⟩ | hSink⟩ := perform_next hPerform
  · obtain ⟨value, rfl⟩ := Instr.echo_of_output hEffect
    have hFree : s.host.sink.writeAll bytes = (none, s.host.sink.after bytes.reverse) :=
      Sink.writeAll_of_fits (hs.fits _)
    exact ⟨a, b, value, bytes, texts, hAt, hLimit, hEffect,
      congrArg Prod.snd (hWrite.symm.trans hFree)⟩
  · exact absurd hSink hWrites

/-- The instruction whose output exceeds the room on the sink below: what fits is written. -/
theorem step_overruns (below : State) (hs : s.host.sink.Unlimited)
    (hRoom : below.host.sink.room = some c) (hBefore : s.host.sink.taken.length ≤ c)
    (hStep : step p limits s = .next t) (hAfter : c < t.host.sink.taken.length) :
    ∃ a b value last f, s.At p a b (some (.echo value)) ∧
      step p limits (s.atop below) = .halt last (some f) ∧
      f.fault = .output below.host.sink.whenFull.reason ∧
      f.location = some (locate b a (.echo value)) ∧
      last.host.sink.kept = below.host.sink.kept ++ t.host.sink.kept.take c := by
  have hWrites : t.host.sink ≠ s.host.sink := by
    intro hSink
    rw [hSink] at hAfter
    omega
  obtain ⟨a, b, value, bytes, texts, hAt, hLimit, hEffect, hSink⟩ :=
    exists_echo_of_writes hs hStep hWrites
  have hLeft : (s.atop below).host.sink.room = some (c - s.host.sink.taken.length) := by
    rw [State.atop, Sink.after, hRoom]
    rfl
  have hOver : c - s.host.sink.taken.length < bytes.length := by
    rw [hSink, Sink.after, List.length_append, List.length_reverse] at hAfter
    omega
  have hRefused := perform_of_refused (p := p) (b := b) (a := a)
    (s := ((s.atop below).count a (.echo value)).warn texts) (Sink.writeAll_of_over hLeft hOver)
  have hLimit' : overLimit limits ((s.atop below).steps + 1) = none := hLimit
  have hHalt : step p limits (s.atop below) = _ :=
    (step_at (hAt.atop below)).trans ((execute_of_ok hLimit' hEffect).trans hRefused)
  refine ⟨a, b, value, _, _, hAt, hHalt, rfl, failure_location hAt _ _, ?_⟩
  rw [hSink, Sink.take_kept_after hBefore, Sink.kept_after, List.reverse_reverse,
    ← List.append_assoc]
  exact congrArg (· ++ _) (Sink.kept_after _ _)

/-- A machine whose output comes to exceed a bound has a transition at which it does. -/
theorem Passes.exists_overrun {n : Nat} (h : Passes p limits n s t)
    (hBefore : s.host.sink.taken.length ≤ c) (hAfter : c < t.host.sink.taken.length) :
    ∃ k u v m, Passes p limits k s u ∧ step p limits u = .next v ∧ Passes p limits m v t ∧
      u.host.sink.taken.length ≤ c ∧ c < v.host.sink.taken.length := by
  induction h with
  | refl => exact absurd hAfter (Nat.not_lt.mpr hBefore)
  | @head n s v t hStep hRest ih =>
    by_cases hNow : v.host.sink.taken.length ≤ c
    · obtain ⟨k, u, w, m, hPasses, hOver⟩ := ih hNow hAfter
      exact ⟨k + 1, u, w, m, .head hStep hPasses, hOver⟩
    · exact ⟨0, s, v, n, .refl s, hStep, hRest, hBefore, Nat.lt_of_not_le hNow⟩

theorem take_kept_of_later {h later : Host} (hLater : h.Later later)
    (hLe : c ≤ h.sink.taken.length) : later.sink.kept.take c = h.sink.kept.take c := by
  obtain ⟨more, hSink⟩ := hLater.sink
  rw [hSink, Sink.kept_after]
  exact List.take_append_of_le_length (Sink.length_kept _ ▸ hLe)

end Overrunning

/-- A run on a sink with room for a number of bytes failed where the run of the machine without a
bound comes to exceed that number. What the sink had room for is kept. -/
structure Report.Overrun (report : Report) (p : Program) (limits : Limits) (h : Host) (sink : Sink)
    (c : Nat) (output : List UInt8) : Prop where
  kept : report.host.sink.kept = sink.kept ++ output.take c
  failed : ∃ s t a b value f, Visits p limits { h with sink := {} } s ∧
    s.At p a b (some (.echo value)) ∧ step p limits s = .next t ∧
    s.host.sink.kept.length ≤ c ∧ c < t.host.sink.kept.length ∧
    report.result = .error f ∧ f.fault = .output sink.whenFull.reason ∧
    f.location = some (locate b a (.echo value))

/-- A run on a sink is the run without a bound, as long as all its output fits. Only a sink that
cannot be flushed turns a success into a failure, one without a place. -/
structure Report.Fitted (report free : Report) (sink : Sink) : Prop where
  kept : report.host.sink.kept = sink.kept ++ free.host.sink.kept
  steps : report.steps = free.steps
  warnings : report.warnings = free.warnings
  called : report.called = free.called
  flushed : sink.flushFails = false → report.result = free.result
  unflushed : sink.flushFails = true → free.result = .ok () → report.result = .error {
    fault := .output sink.flushReason
    location := none
    callStack := [] }
  failed : ∀ f, free.result = .error f → report.result = .error f

theorem fitted_conclude {s : State} (hs : s.host.sink.Unlimited) (sink : Sink)
    (failure : Option Failure) :
    (conclude (s.atop (blank sink)) failure).Fitted (conclude s failure) sink := by
  have hKept : (s.atop (blank sink)).host.sink.kept = sink.kept ++ s.host.sink.kept :=
    Sink.kept_after sink s.host.sink.taken
  have hTrail : (s.atop (blank sink)).trail = s.trail := List.append_nil s.trail
  have hFree : s.host.sink.flush = none := Sink.flush_of_unlimited hs
  have hFlush : (s.atop (blank sink)).host.sink.flush =
      if sink.flushFails then some sink.flushReason else none := rfl
  refine ⟨?_, ?_, ?_, ?_, ?_, ?_, ?_⟩
  · rw [conclude_sink, conclude_sink, hKept]
  · rw [conclude_steps, conclude_steps]
    rfl
  · rw [conclude_warnings, conclude_warnings, State.warnings, hTrail]
    rfl
  · rw [conclude_called, conclude_called, State.called, hTrail]
    rfl
  · intro hFlushes
    cases failure with
    | some f => rfl
    | none =>
      rw [hFlushes, if_neg Bool.false_ne_true] at hFlush
      rw [conclude_of_flushed s hFree, conclude_of_flushed _ hFlush]
  · intro hFails hOk
    cases failure with
    | some f => cases hOk
    | none =>
      rw [hFails, if_pos rfl] at hFlush
      exact conclude_of_unflushed _ hFlush
  · intro f hError
    cases failure with
    | some f => exact hError
    | none =>
      rw [conclude_of_flushed s hFree] at hError
      cases hError

section Run

variable {h : Host} {sink : Sink} {entry : CodeBlock}

theorem start_unlimited (p : Program) (entry : CodeBlock) (h : Host) :
    (start p entry { h with sink := {} }).host.sink.Unlimited := ⟨rfl, rfl⟩

/-- Wherever the machine without a bound has written more than there is room for, the run on the
sink has failed before. -/
theorem run_overruns (hRoom : sink.room = some c) (hVisits : Visits p limits { h with sink := {} } s)
    (hOver : c < s.host.sink.kept.length) :
    ∃ fuel report, run fuel p limits { h with sink } = some report ∧
      report.Overrun p limits h sink c s.host.sink.kept := by
  obtain ⟨hVerify, hDepth, entry, hEntry, hReaches⟩ := hVisits
  have hFree := start_unlimited p entry (h.push (.block entry.activation))
  obtain ⟨n, hPasses⟩ := hReaches.exists_passes
  rw [Sink.length_kept] at hOver
  obtain ⟨k, u, v, m, hBefore, hStep, hAfter, hFit, hExceeds⟩ :=
    hPasses.exists_overrun (Nat.zero_le c) hOver
  have hReaches' : Reaches p limits _ u := hBefore.reaches (.refl _)
  have hu := (hReaches'.later hFree).unlimited hFree
  have hv : v.host.sink.Unlimited := ((hReaches'.step hStep).later hFree).unlimited hFree
  obtain ⟨a, b, value, last, f, hAt, hHalt, hFault, hLocation, hKept⟩ :=
    step_overruns (blank sink) hu hRoom hFit hStep hExceeds
  have hFits : (blank sink).host.sink.Fits u.host.sink.taken.length := by
    intro r hr
    cases hRoom.symm.trans hr
    exact hFit
  have hOn := hBefore.atop hFree hFits
  have hStart := start_atop p entry (h.push (.block entry.activation)) sink
  obtain ⟨fuel, hIterate⟩ := ((Halts.of_step hHalt).of_passes (hStart ▸ hOn)).exists_iterate
  refine ⟨fuel, conclude last (some f), ?_, ?_, u, v, a, b, value, f, ?_, hAt, hStep, ?_, ?_, rfl,
    hFault, hLocation⟩
  · have hRoom' : Host.depth { h with sink } < limits.maxFrames := hDepth
    rw [run_of_entry hVerify hEntry, runFrom_of_room hRoom']
    exact congrArg (Option.map _) hIterate
  · rw [conclude_sink, hKept, ← take_kept_of_later ((hAfter.reaches (.refl v)).later hv)
      (Nat.le_of_lt hExceeds)]
    rfl
  · exact ⟨hVerify, hDepth, entry, hEntry, hReaches'⟩
  · exact Sink.length_kept _ ▸ hFit
  · exact Sink.length_kept _ ▸ hExceeds

theorem run_fits (hVerify : p.verify = .ok ()) (hEntry : p.entryBlock? = some entry) {fuel : Nat}
    {free : Report} (hRun : run fuel p limits { h with sink := {} } = some free)
    (hFits : sink.Fits free.host.sink.kept.length) :
    ∃ report, run fuel p limits { h with sink } = some report ∧ report.Fitted free sink := by
  rw [run_of_entry hVerify hEntry] at hRun ⊢
  by_cases hCrowded : limits.maxFrames ≤ h.depth
  · have hCrowded' (sink : Sink) : limits.maxFrames ≤ Host.depth { h with sink } := hCrowded
    rw [runFrom_of_crowded (hCrowded' _)] at hRun ⊢
    cases hRun
    refine ⟨_, rfl, ?_⟩
    rw [← start_atop]
    exact fitted_conclude (start_unlimited p entry h) sink _
  · have hRoom (sink : Sink) : Host.depth { h with sink } < limits.maxFrames :=
      Nat.lt_of_not_le hCrowded
    rw [runFrom_of_room (hRoom _)] at hRun ⊢
    obtain ⟨⟨last, failure⟩, hIterate, rfl⟩ := Option.map_eq_some_iff.mp hRun
    have hFree := start_unlimited p entry (h.push (.block entry.activation))
    have hStart := start_atop p entry (h.push (.block entry.activation)) sink
    have hLast : last.host.sink.Unlimited := (iterate_later hFree hIterate).unlimited hFree
    rw [conclude_sink, Sink.length_kept] at hFits
    have hOn := iterate_atop (blank sink) hFree rfl hFits hIterate
    refine ⟨conclude (last.atop (blank sink)) failure, ?_, fitted_conclude hLast sink failure⟩
    exact congrArg (Option.map _) (hStart ▸ hOn)

theorem exists_visits_of_run (hVerify : p.verify = .ok ()) (hEntry : p.entryBlock? = some entry)
    {fuel : Nat} {free : Report} (hRun : run fuel p limits { h with sink := {} } = some free)
    (hSome : free.host.sink.kept ≠ []) :
    ∃ s, Visits p limits { h with sink := {} } s ∧ s.host.sink.kept = free.host.sink.kept := by
  rw [run_of_entry hVerify hEntry] at hRun
  by_cases hCrowded : limits.maxFrames ≤ h.depth
  · have hCrowded' : limits.maxFrames ≤ Host.depth { h with sink := {} } := hCrowded
    rw [runFrom_of_crowded hCrowded'] at hRun
    cases hRun
    exact absurd rfl hSome
  · have hRoom : Host.depth { h with sink := {} } < limits.maxFrames := Nat.lt_of_not_le hCrowded
    rw [runFrom_of_room hRoom] at hRun
    obtain ⟨⟨last, failure⟩, hIterate, rfl⟩ := Option.map_eq_some_iff.mp hRun
    obtain ⟨n, s, hPasses, hHalt⟩ := Halts.of_iterate hIterate
    have hFree := start_unlimited p entry (h.push (.block entry.activation))
    have hReaches : Reaches p limits _ s := hPasses.reaches (.refl _)
    have hs : s.host.sink.Unlimited := (hReaches.later hFree).unlimited hFree
    refine ⟨s, ⟨hVerify, hRoom, entry, hEntry, hReaches⟩, ?_⟩
    rw [conclude_sink, step_halt_host hs hHalt]

end Run

/-- Whatever a run with an unlimited sink would write, a run on a sink keeps as much of it as there
is room for. If all of it fits, the two runs are the same up to the flush. If not, the run on the
sink fails at the first instruction whose output exceeds the room, also when the run without a
bound never ends. -/
theorem run_on_sink (p : Program) (limits : Limits) (h : Host) (sink : Sink)
    (hVerify : p.verify = .ok ()) :
    (∀ fuel free, run fuel p limits { h with sink := {} } = some free →
      (sink.Fits free.host.sink.kept.length →
        ∃ report, run fuel p limits { h with sink } = some report ∧ report.Fitted free sink) ∧
      ∀ c, sink.room = some c → c < free.host.sink.kept.length →
        ∃ fuel report, run fuel p limits { h with sink } = some report ∧
          report.Overrun p limits h sink c free.host.sink.kept) ∧
    ∀ c s, sink.room = some c → Visits p limits { h with sink := {} } s →
      c < s.host.sink.kept.length →
      ∃ fuel report, run fuel p limits { h with sink } = some report ∧
        report.Overrun p limits h sink c s.host.sink.kept := by
  obtain ⟨entry, hEntry⟩ := Program.exists_block? ((p.verify_eq_ok_iff).mp hVerify).entry_lt
  refine ⟨fun fuel free hRun => ⟨run_fits hVerify hEntry hRun, ?_⟩, ?_⟩
  · intro c hRoom hOver
    have hSome : free.host.sink.kept ≠ [] := by
      intro hNone
      rw [hNone] at hOver
      exact Nat.not_lt_zero c hOver
    obtain ⟨s, hVisits, hKept⟩ := exists_visits_of_run hVerify hEntry hRun hSome
    rw [← hKept] at hOver ⊢
    exact run_overruns hRoom hVisits hOver
  · intro c s hRoom hVisits hOver
    exact run_overruns hRoom hVisits hOver

/-- One block, that writes two letters and then nothing. -/
def hush : Program where
  blocks := [
    { label := ⟨0⟩, origin := ⟨0⟩, instrs := [.echo 0, .echo 1], lines := [none, none],
      constants := [⟨⟨0⟩, 0, .string [97, 98]⟩, ⟨⟨1⟩, 1, .string []⟩], scopeSize := 2 }]
  entry := ⟨0⟩
  slotCount := 2

def narrow (room : Nat) : Sink where
  room := some room
  whenFull := .fail
  flushFails := true

/-- With room for two letters the two are kept and writing nothing succeeds on the full sink; with
room for one, one is kept. -/
theorem run_on_sink_hush :
    hush.verify = .ok () ∧
    (∃ report, run 9 hush {} { sink := narrow 2 } = some report ∧
      report.host.sink.kept = [97, 98] ∧
      report.result = .error { fault := .output "flush failed" }) ∧
    ∃ fuel report, run fuel hush {} { sink := narrow 1 } = some report ∧
      report.Overrun hush {} {} (narrow 1) 1 [97, 98] := by
  have hVerify : hush.verify = .ok () := rfl
  have hShown : (run 9 hush {} {}).map (fun r => (r.host.sink.kept, r.result.toOption)) =
      some ([97, 98], some ()) := by decide +kernel
  obtain ⟨free, hRun, hFree⟩ := Option.map_eq_some_iff.mp hShown
  obtain ⟨hKept, hResult⟩ := Prod.mk.inj hFree
  have hOk : free.result = .ok () := by
    cases hCase : free.result with
    | ok u => rfl
    | error f =>
      rw [hCase] at hResult
      cases hResult
  have hFits : (narrow 2).Fits free.host.sink.kept.length := by
    rw [hKept]
    rintro r ⟨⟩
    decide
  have hOver : 1 < free.host.sink.kept.length := by
    rw [hKept]
    decide
  obtain ⟨report, hReport, hFitted⟩ :=
    ((run_on_sink hush {} {} (narrow 2) hVerify).1 9 free hRun).1 hFits
  obtain ⟨fuel, cut, hCut, hOverrun⟩ :=
    ((run_on_sink hush {} {} (narrow 1) hVerify).1 9 free hRun).2 1 rfl hOver
  rw [hKept] at hOverrun
  refine ⟨hVerify, ⟨report, hReport, ?_, hFitted.unflushed rfl hOk⟩, fuel, cut, hCut, hOverrun⟩
  rw [hFitted.kept, hKept]
  rfl

end Machine

end BlockMachine
