import BlockMachine.Proofs.Machine.Safety
import BlockMachine.Proofs.Machine.Transition

/-!
# Step budgets
A smaller step limit cuts a run short and changes nothing before the cut. Up to the limit the two
runs make the same transitions; the first instruction past it is refused. Between the last
instruction carried out and the one refused the machine may still end frames and call the host.
-/

namespace BlockMachine.Machine
set_option autoImplicit false

variable {p : Program} {limits cut : Limits} {s t : State} {m : Nat}

section Counting

variable {a : Activation} {b : CodeBlock} {i : Instr}

theorem carriedOut?_of_within (hAt : s.At p a b (some i))
    (hLimit : overLimit limits (s.steps + 1) = none) : carriedOut? p limits s = some i := by
  simp only [carriedOut?, hAt.running, hAt.block, hAt.instr, hLimit, Option.bind_eq_bind,
    Option.bind_some, Option.isNone_none, if_true]

theorem carriedOut?_of_idle (hIdle : ∀ a b i, ¬ s.At p a b (some i)) :
    carriedOut? p limits s = none := by
  obtain hNone | ⟨a, hRunning, hBlock⟩ | ⟨a, b, hAt⟩ | ⟨a, b, i, hAt⟩ := stands p s
  · simp only [carriedOut?, hNone, Option.bind_eq_bind, Option.bind_none]
  · simp only [carriedOut?, hRunning, hBlock, Option.bind_eq_bind, Option.bind_some,
      Option.bind_none]
  · simp only [carriedOut?, hAt.running, hAt.block, hAt.instr, Option.bind_eq_bind,
      Option.bind_some, Option.bind_none]
  · exact absurd hAt (hIdle a b i)

theorem carried_of_next (h : step p limits s = .next t) (n : Nat) :
    carried p limits (n + 1) s = (carriedOut? p limits s).toList.length + carried p limits n t := by
  rw [carried, h]

theorem carried_of_halt {failure : Option Failure} (h : step p limits s = .halt t failure) (n : Nat) :
    carried p limits (n + 1) s = (carriedOut? p limits s).toList.length := by
  rw [carried, h]
  rfl

theorem steps_of_next (h : step p limits s = .next t) :
    t.steps = s.steps + (carriedOut? p limits s).toList.length := by
  by_cases hAt : ∃ a b i, s.At p a b (some i)
  · obtain ⟨a, b, i, hAt⟩ := hAt
    obtain ⟨hLimit, hSteps⟩ := step_at_next hAt h
    rw [carriedOut?_of_within hAt hLimit]
    exact hSteps
  · have hIdle : ∀ a b i, ¬ s.At p a b (some i) := fun a b i hi => hAt ⟨a, b, i, hi⟩
    rw [carriedOut?_of_idle hIdle]
    exact (step_idle hIdle h).2.2.1

theorem Passes.steps {n : Nat} (h : Passes p limits n s t) :
    t.steps = s.steps + carried p limits n s := by
  induction h with
  | refl => rfl
  | head hStep _ ih =>
    rw [carried_of_next hStep, ih, steps_of_next hStep]
    exact Nat.add_assoc _ _ _

/-- Whatever passes on has, at some point, just carried out as many instructions as it will have
in the end. -/
theorem Passes.exists_completes {n : Nat} (h : Passes p limits n s t)
    (hCarried : carried p limits n s = m) :
    ∃ done, Completes p limits s m done ∧ Idles p limits done t := by
  induction h generalizing m with
  | refl s =>
    subst hCarried
    exact ⟨s, ⟨0, .refl s, rfl, fun k hk => absurd hk (Nat.not_lt_zero k)⟩, 0, .refl s, rfl⟩
  | @head n s t u hStep hRest ih =>
    by_cases hNone : m = 0
    · subst hNone
      exact ⟨s, ⟨0, .refl s, rfl, fun k hk => absurd hk (Nat.not_lt_zero k)⟩, n + 1,
        .head hStep hRest, hCarried⟩
    · rw [carried_of_next hStep] at hCarried
      obtain ⟨done, ⟨k, hPasses, hDone, hBefore⟩, hIdles⟩ := ih rfl
      refine ⟨done, ⟨k + 1, .head hStep hPasses, ?_, ?_⟩, hIdles⟩
      · rw [carried_of_next hStep, hDone]
        exact hCarried
      · intro j hj
        cases j with
        | zero => exact Nat.pos_of_ne_zero hNone
        | succ j =>
          have hLess := hBefore j (Nat.lt_of_succ_lt_succ hj)
          rw [carried_of_next hStep]
          omega

theorem carried_unique {fuel more : Nat} {r r' : State × Option Failure}
    (h : iterate p limits fuel s = some r) (h' : iterate p limits more s = some r') :
    carried p limits fuel s = carried p limits more s := by
  induction fuel generalizing s more with
  | zero => cases h
  | succ fuel ih =>
    cases more with
    | zero => cases h'
    | succ more =>
      rw [iterate] at h h'
      cases hStep : step p limits s with
      | next t =>
        rw [hStep] at h h'
        rw [carried_of_next hStep, carried_of_next hStep, ih h h']
      | halt t failure => rw [carried_of_halt hStep, carried_of_halt hStep]

theorem Idles.keeps (h : Idles p limits s t) :
    t.host.sink = s.host.sink ∧ t.warnings = s.warnings := by
  obtain ⟨n, hPasses, hNone⟩ := h
  induction hPasses with
  | refl => exact ⟨rfl, rfl⟩
  | @head n s t u hStep _ ih =>
    rw [carried_of_next hStep] at hNone
    obtain ⟨hSink, hWarnings⟩ := ih (by omega)
    have hIdle : ∀ a b i, ¬ s.At p a b (some i) := by
      intro a b i hAt
      rw [carriedOut?_of_within hAt (step_at_next hAt hStep).1] at hNone
      exact absurd hNone (by simp)
    obtain ⟨-, hSinkStep, -, hWarningsStep, -⟩ := step_idle hIdle hStep
    refine ⟨hSink.trans hSinkStep, hWarnings.trans ?_⟩
    rw [State.warnings, State.warnings, List.filterMap_reverse, List.filterMap_reverse,
      hWarningsStep]

end Counting

/-- The limits make a difference only where an instruction is counted. -/
theorem step_congr (h : overLimit limits (s.steps + 1) = overLimit cut (s.steps + 1)) :
    step p limits s = step p cut s := by
  obtain hNone | ⟨a, hRunning, hBlock⟩ | ⟨a, b, hAt⟩ | ⟨a, b, i, hAt⟩ := stands p s
  · rw [step_of_none hNone, step_of_none hNone]
  · rw [step_of_missing hRunning hBlock, step_of_missing hRunning hBlock]
  · rw [step_at_end hAt, step_at_end hAt]
  · rw [step_at hAt, step_at hAt, execute, execute]
    dsimp only
    rw [h]

theorem step_congr_of_idle (hIdle : ∀ a b i, ¬ s.At p a b (some i)) :
    step p limits s = step p cut s := by
  obtain hNone | ⟨a, hRunning, hBlock⟩ | ⟨a, b, hAt⟩ | ⟨a, b, i, hAt⟩ := stands p s
  · rw [step_of_none hNone, step_of_none hNone]
  · rw [step_of_missing hRunning hBlock, step_of_missing hRunning hBlock]
  · rw [step_at_end hAt, step_at_end hAt]
  · exact absurd hAt (hIdle a b i)

/-- With a step limit a machine halts: an instruction uses up the limit, and what comes between
instructions uses up the stack. -/
theorem exists_iterate (hCut : cut.maxSteps = some m) (s : State) :
    ∃ fuel r, iterate p cut fuel s = some r := by
  cases hStep : step p cut s with
  | halt t failure => exact ⟨1, (t, failure), by rw [iterate, hStep]⟩
  | next t =>
    have hLess : m + 1 - t.steps < m + 1 - s.steps ∨ m + 1 - t.steps = m + 1 - s.steps ∧
        2 * t.host.pending.length + t.running.toList.length <
          2 * s.host.pending.length + s.running.toList.length := by
      by_cases hAt : ∃ a b i, s.At p a b (some i)
      · left
        obtain ⟨a, b, i, hAt⟩ := hAt
        obtain ⟨hLimit, hSteps⟩ := step_at_next hAt hStep
        have hWithin := (overLimit_eq_none_iff cut _).mp hLimit m hCut
        omega
      · right
        obtain ⟨-, -, hSteps, -, hLoad⟩ := step_idle (fun a b i hi => hAt ⟨a, b, i, hi⟩) hStep
        exact ⟨by rw [hSteps], hLoad⟩
    obtain ⟨fuel, r, hRun⟩ := exists_iterate hCut t
    exact ⟨fuel + 1, r, by rw [iterate, hStep]; exact hRun⟩
termination_by (m + 1 - s.steps, 2 * s.host.pending.length + s.running.toList.length)
decreasing_by
  rcases hLess with hLess | ⟨hSame, hLess⟩
  · exact .left _ _ hLess
  · rw [hSame]
    exact .right _ hLess

section Cutting

variable (hCut : cut.maxSteps = some m) (hMore : ∀ k, limits.maxSteps = some k → m < k)
  {fuel : Nat} {r : State × Option Failure}

include hCut hMore

theorem step_cut (hs : s.steps < m) : step p limits s = step p cut s := by
  have hLimit : overLimit limits (s.steps + 1) = none := by
    rw [overLimit_eq_none_iff]
    intro k hk
    have hLess := hMore k hk
    omega
  have hCutLimit : overLimit cut (s.steps + 1) = none := by
    rw [overLimit_eq_none_iff]
    intro k hk
    cases hCut.symm.trans hk
    exact hs
  exact step_congr (hLimit.trans hCutLimit.symm)

theorem iterate_cut_of_carried (h : iterate p limits fuel s = some r)
    (hFew : s.steps + carried p limits fuel s ≤ m) : iterate p cut fuel s = some r := by
  induction fuel generalizing s with
  | zero => cases h
  | succ fuel ih =>
    have hSame : step p limits s = step p cut s := by
      by_cases hAt : ∃ a b i, s.At p a b (some i)
      · obtain ⟨a, b, i, hAt⟩ := hAt
        have hLimit : overLimit limits (s.steps + 1) = none := by
          rw [overLimit_eq_none_iff]
          intro k hk
          have hLess := hMore k hk
          omega
        rw [carried, carriedOut?_of_within hAt hLimit] at hFew
        exact step_cut hCut hMore (by simp only [Option.toList, List.length_singleton] at hFew; omega)
      · exact step_congr_of_idle fun a b i hi => hAt ⟨a, b, i, hi⟩
    rw [iterate] at h ⊢
    rw [← hSame]
    cases hStep : step p limits s with
    | next t =>
      rw [hStep] at h
      rw [carried_of_next hStep] at hFew
      have hSteps := steps_of_next hStep
      exact ih h (by omega)
    | halt t failure =>
      rw [hStep] at h
      exact h

/-- A run under the smaller limit is the run under the larger one, or it ends at the first
instruction that is one too many. -/
theorem iterate_cut (hs : s.steps ≤ m) (h : iterate p cut fuel s = some r) :
    iterate p limits fuel s = some r ∧ s.steps + carried p limits fuel s ≤ m ∨
      ∃ n t a b i, Passes p limits n s t ∧ t.At p a b (some i) ∧ t.steps = m ∧
        r = (t.count a i, some ((t.count a i).failure b a (.stepLimit m))) := by
  induction fuel generalizing s with
  | zero => cases h
  | succ fuel ih =>
    by_cases hOver : s.steps = m ∧ ∃ a b i, s.At p a b (some i)
    · obtain ⟨hSteps, a, b, i, hAt⟩ := hOver
      have hLimit := overLimit_eq_some hCut (Nat.lt_succ_of_le (Nat.le_of_eq hSteps.symm))
      rw [iterate, step_at hAt, execute_of_over hLimit] at h
      exact .inr ⟨0, s, a, b, i, .refl s, hAt, hSteps, (Option.some.inj h).symm⟩
    · obtain ⟨hSame, hCount⟩ : step p limits s = step p cut s ∧
          s.steps + (carriedOut? p limits s).toList.length ≤ m := by
        by_cases hAt : ∃ a b i, s.At p a b (some i)
        · have hBelow : s.steps < m := Nat.lt_of_le_of_ne hs fun hSteps => hOver ⟨hSteps, hAt⟩
          have hOne : (carriedOut? p limits s).toList.length ≤ 1 := by
            cases carriedOut? p limits s <;> simp
          exact ⟨step_cut hCut hMore hBelow, by omega⟩
        · have hIdle : ∀ a b i, ¬ s.At p a b (some i) := fun a b i hi => hAt ⟨a, b, i, hi⟩
          rw [carriedOut?_of_idle hIdle]
          exact ⟨step_congr_of_idle hIdle, hs⟩
      rw [iterate, ← hSame] at h
      cases hStep : step p limits s with
      | next t =>
        rw [hStep] at h
        have hSteps := steps_of_next hStep
        rcases ih (by omega) h with ⟨hRun, hFew⟩ | ⟨n, u, a, b, i, hPasses, hAt, hu, hr⟩
        · left
          rw [iterate, hStep, carried_of_next hStep]
          exact ⟨hRun, by omega⟩
        · exact .inr ⟨n + 1, u, a, b, i, .head hStep hPasses, hAt, hu, hr⟩
      | halt t failure =>
        rw [hStep] at h
        left
        rw [iterate, hStep, carried_of_halt hStep]
        exact ⟨h, hCount⟩

end Cutting

/-- A run ended at an instruction that was one too many. What was written and warned about is what
there was when the last instruction had been carried out; the host functions called are those
called before the machine came to the next one. -/
structure Report.CutShort (report : Report) (m : Nat) (done next : State) (a : Activation)
    (b : CodeBlock) (i : Instr) : Prop where
  failed : ∃ f, report.result = .error f ∧ f.fault = .stepLimit m ∧ f.location = some (locate b a i)
  sink : report.host.sink = done.host.sink
  warnings : report.warnings = done.warnings
  called : report.called = next.called

theorem cutShort_conclude {done next : State} {a : Activation} {b : CodeBlock} {i : Instr}
    (hIdles : Idles p limits done next) (hAt : next.At p a b (some i)) :
    (conclude (next.count a i) (some ((next.count a i).failure b a (.stepLimit m)))).CutShort
      m done next a b i := by
  obtain ⟨hSink, hWarnings⟩ := hIdles.keeps
  refine ⟨⟨_, rfl, rfl, failure_location hAt _ _⟩, hSink, ?_, ?_⟩
  · rw [conclude_warnings, warnings_count, hWarnings]
  · rw [conclude_called, called_count]

/-- A run that carries out more than the smaller limit allows, or never ends, is cut short under
that limit. -/
theorem exists_cutShort (hCut : cut.maxSteps = some m)
    (hMore : ∀ k, limits.maxSteps = some k → m < k) (hs : s.steps = 0)
    (hOver : ¬ ∃ fuel r, iterate p limits fuel s = some r ∧ carried p limits fuel s ≤ m) :
    ∃ fuel r done next a b i, iterate p cut fuel s = some r ∧ Completes p limits s m done ∧
      Idles p limits done next ∧ next.At p a b (some i) ∧
      (conclude r.1 r.2).CutShort m done next a b i := by
  obtain ⟨fuel, r, hIterate⟩ : ∃ fuel r, iterate p cut fuel s = some r := exists_iterate hCut s
  rcases iterate_cut hCut hMore (by omega) hIterate with
    ⟨hSame, hFew⟩ | ⟨n, next, a, b, i, hPasses, hAt, hNext, rfl⟩
  · exact absurd ⟨fuel, r, hSame, by omega⟩ hOver
  · have hCarried := hPasses.steps
    obtain ⟨done, hCompletes, hIdles⟩ := hPasses.exists_completes (m := m) (by omega)
    exact ⟨fuel, _, done, next, a, b, i, hIterate, hCompletes, hIdles, hAt,
      cutShort_conclude hIdles hAt⟩

theorem iterate_of_cut_success {fuel : Nat} (hCut : cut.maxSteps = some m)
    (hMore : ∀ k, limits.maxSteps = some k → m < k) (hs : s.steps = 0)
    (h : iterate p cut fuel s = some (t, none)) : iterate p limits fuel s = some (t, none) := by
  rcases iterate_cut hCut hMore (by omega) h with ⟨hSame, -⟩ | ⟨n, next, a, b, i, -, -, -, hr⟩
  · exact hSame
  · cases hr

theorem runFrom_of_room {fuel : Nat} {entry : CodeBlock} {h : Host}
    (hRoom : h.depth < limits.maxFrames) :
    runFrom fuel p limits entry h =
      (iterate p limits fuel (start p entry (h.push (.block entry.activation)))).map
        fun (s, failure) => conclude s failure := by
  rw [runFrom, if_neg (Nat.not_le.mpr hRoom)]

theorem runFrom_of_crowded {fuel : Nat} {entry : CodeBlock} {h : Host}
    (hCrowded : limits.maxFrames ≤ h.depth) :
    runFrom fuel p limits entry h =
      some (conclude (start p entry h) (some { fault := .frameLimit limits.maxFrames })) := by
  rw [runFrom, if_pos hCrowded]

theorem runCarried_of_entry (hVerify : p.verify = .ok ()) {entry : CodeBlock}
    (hEntry : p.entryBlock? = some entry) (h : Host) (fuel : Nat) :
    runCarried fuel p limits h = if limits.maxFrames ≤ h.depth then 0
      else carried p limits fuel (start p entry (h.push (.block entry.activation))) := by
  rw [runCarried, hVerify, hEntry]

theorem runCarried_unique (hVerify : p.verify = .ok ()) {h : Host} {fuel more : Nat}
    {report report' : Report} (hRun : run fuel p limits h = some report)
    (hRun' : run more p limits h = some report') :
    runCarried fuel p limits h = runCarried more p limits h := by
  obtain ⟨entry, hEntry⟩ := Program.exists_block? ((p.verify_eq_ok_iff).mp hVerify).entry_lt
  rw [run_of_entry hVerify hEntry] at hRun hRun'
  rw [runCarried_of_entry hVerify hEntry, runCarried_of_entry hVerify hEntry]
  by_cases hCrowded : limits.maxFrames ≤ h.depth
  · rw [if_pos hCrowded, if_pos hCrowded]
  · rw [runFrom_of_room (Nat.lt_of_not_le hCrowded)] at hRun hRun'
    obtain ⟨r, hIterate, -⟩ := Option.map_eq_some_iff.mp hRun
    obtain ⟨r', hIterate', -⟩ := Option.map_eq_some_iff.mp hRun'
    rw [if_neg hCrowded, if_neg hCrowded, carried_unique hIterate hIterate']

/-- A smaller step limit only cuts a run short. A run that carries out no more instructions than
the smaller limit allows is the same run under it. Any other, whether it ends or not, fails under
the smaller limit, at the instruction behind the last one allowed, and with what it had shown by
then. A run that succeeds under a limit is the same run under every larger one, and without any. -/
theorem run_budget (p : Program) (limits : Limits) (h : Host) (m : Nat)
    (hVerify : p.verify = .ok ()) (hMore : ∀ k, limits.maxSteps = some k → m < k) :
    (∀ fuel report, run fuel p limits h = some report → runCarried fuel p limits h ≤ m →
      run fuel p { limits with maxSteps := some m } h = some report) ∧
    ((¬ ∃ fuel report, run fuel p limits h = some report ∧ runCarried fuel p limits h ≤ m) →
      ∃ entry fuel report done next a b i, p.entryBlock? = some entry ∧
        run fuel p { limits with maxSteps := some m } h = some report ∧
        Completes p limits (start p entry (h.push (.block entry.activation))) m done ∧
        Idles p limits done next ∧ next.At p a b (some i) ∧
        report.CutShort m done next a b i) ∧
    ∀ fuel report, run fuel p { limits with maxSteps := some m } h = some report →
      report.result = .ok () → run fuel p limits h = some report := by
  obtain ⟨entry, hEntry⟩ := Program.exists_block? ((p.verify_eq_ok_iff).mp hVerify).entry_lt
  have hRun (fuel : Nat) (limits : Limits) : run fuel p limits h = runFrom fuel p limits entry h :=
    run_of_entry hVerify hEntry h fuel
  simp only [hRun, runCarried_of_entry hVerify hEntry]
  by_cases hCrowded : limits.maxFrames ≤ h.depth
  · have hSame (fuel : Nat) : runFrom fuel p { limits with maxSteps := some m } entry h =
        runFrom fuel p limits entry h := by
      rw [runFrom_of_crowded hCrowded, runFrom_of_crowded (by exact hCrowded)]
    simp only [hSame, if_pos hCrowded]
    refine ⟨fun _ _ hReport _ => hReport, fun hOver => ?_, fun _ _ hReport _ => hReport⟩
    exact absurd ⟨0, _, runFrom_of_crowded hCrowded, Nat.zero_le m⟩ hOver
  · have hRoom : h.depth < limits.maxFrames := Nat.lt_of_not_le hCrowded
    have hRoomCut : h.depth < { limits with maxSteps := some m : Limits }.maxFrames := hRoom
    have hCut : { limits with maxSteps := some m : Limits }.maxSteps = some m := rfl
    simp only [runFrom_of_room hRoom, runFrom_of_room hRoomCut, if_neg hCrowded]
    generalize hStart : start p entry (h.push (.block entry.activation)) = s
    have hSteps : s.steps = 0 := by
      rw [← hStart]
      rfl
    refine ⟨?_, ?_, ?_⟩
    · intro fuel report hReport hFew
      obtain ⟨r, hIterate, rfl⟩ := Option.map_eq_some_iff.mp hReport
      rw [iterate_cut_of_carried hCut hMore hIterate (by omega)]
      rfl
    · intro hOver
      have hOver' : ¬ ∃ fuel r, iterate p limits fuel s = some r ∧ carried p limits fuel s ≤ m := by
        rintro ⟨fuel, r, hIterate, hFew⟩
        exact hOver ⟨fuel, _, by rw [hIterate]; rfl, hFew⟩
      obtain ⟨fuel, r, done, next, a, b, i, hIterate, hCompletes, hIdles, hAt, hShort⟩ :=
        exists_cutShort hCut hMore hSteps hOver'
      exact ⟨entry, fuel, _, done, next, a, b, i, hEntry, by rw [hIterate]; rfl,
        hStart ▸ hCompletes, hIdles, hAt, hShort⟩
    · intro fuel report hReport hOk
      obtain ⟨⟨t, failure⟩, hIterate, rfl⟩ := Option.map_eq_some_iff.mp hReport
      cases failure with
      | some f => cases hOk
      | none =>
        rw [iterate_of_cut_success hCut hMore hSteps hIterate]
        rfl

/-- One block, with one instruction, that writes one letter. -/
def chime : Program where
  blocks := [
    { label := ⟨0⟩, origin := ⟨0⟩, instrs := [.echo 0], lines := [none],
      constants := [⟨⟨0⟩, 0, .string [97]⟩], scopeSize := 1 }]
  entry := ⟨0⟩
  slotCount := 1

def chimeHost : Host where
  pending := [.continuation "between", .block { code := ⟨0⟩, scope := #[.string [98]] }]

theorem runCarried_chime {fuel : Nat} {report : Report}
    (hRun : run fuel chime {} chimeHost = some report) : runCarried fuel chime {} chimeHost = 2 := by
  have hEnds : (run 9 chime {} chimeHost).isSome = true := by decide +kernel
  obtain ⟨report', hRun'⟩ := Option.isSome_iff_exists.mp hEnds
  have hTwo : runCarried 9 chime {} chimeHost = 2 := by decide +kernel
  rw [runCarried_unique rfl hRun hRun', hTwo]

theorem run_budget_chime :
    chime.verify = .ok () ∧ (∀ k, ({} : Limits).maxSteps = some k → 1 < k) ∧
    ∃ entry fuel report done next a b i, chime.entryBlock? = some entry ∧
      run fuel chime { maxSteps := some 1 } chimeHost = some report ∧
      Completes chime {} (start chime entry (chimeHost.push (.block entry.activation))) 1 done ∧
      Idles chime {} done next ∧ next.At chime a b (some i) ∧
      report.CutShort 1 done next a b i := by
  have hMore : ∀ k, ({} : Limits).maxSteps = some k → 1 < k := by
    rintro k ⟨⟩
  refine ⟨rfl, hMore, (run_budget chime {} chimeHost 1 rfl hMore).2.1 ?_⟩
  rintro ⟨fuel, report, hRun, hFew⟩
  rw [runCarried_chime hRun] at hFew
  exact absurd hFew (by decide)

/-- The state of the same run when the first letter is written. -/
def chimed : State where
  running := some { code := ⟨0⟩, scope := #[.string [97]], pc := 1 }
  host := { chimeHost with sink := { taken := [97] } }
  steps := 1
  trail := [.reached ⟨0⟩ 0 "ECHO", .started ⟨0⟩ 1 1]

/-- The call back between the last instruction allowed and the one that is refused is still made:
what is called is more than what was called by the end of the last instruction allowed. -/
theorem cut_run_calls_on :
    ¬ (∀ (fuel : Nat) (p : Program) (h : Host) (m : Nat) (entry : CodeBlock) (done : State)
      (report : Report), p.verify = .ok () → p.entryBlock? = some entry →
      (¬ ∃ fuel report, run fuel p {} h = some report ∧ runCarried fuel p {} h ≤ m) →
      Completes p {} (start p entry (h.push (.block entry.activation))) m done →
      run fuel p { maxSteps := some m } h = some report → report.called = done.called) := by
  intro hAll
  have hOver : ¬ ∃ fuel report, run fuel chime {} chimeHost = some report ∧
      runCarried fuel chime {} chimeHost ≤ 1 := by
    rintro ⟨fuel, report, hRun, hFew⟩
    rw [runCarried_chime hRun] at hFew
    exact absurd hFew (by decide)
  have hCompletes : ∀ entry, chime.entryBlock? = some entry →
      Completes chime {} (start chime entry (chimeHost.push (.block entry.activation))) 1 chimed := by
    rintro entry ⟨⟩
    refine ⟨2, .head rfl (.head ?_ (.refl _)), by decide +kernel, by decide +kernel⟩
    decide +kernel
  have hCalled : (run 9 chime { maxSteps := some 1 } chimeHost).map Report.called =
      some ["between"] := by decide +kernel
  obtain ⟨report, hRun, hReport⟩ := Option.map_eq_some_iff.mp hCalled
  have hSame := hAll 9 chime chimeHost 1 _ chimed report rfl rfl hOver (hCompletes _ rfl) hRun
  rw [hReport] at hSame
  exact absurd hSame (by decide)

end BlockMachine.Machine
