import BlockMachine.Machine.Blame
import BlockMachine.Proofs.Machine.Budget
import BlockMachine.Proofs.Machine.Course

/-!
# Where failures point
A failure at an instruction tells its place, the frames that were there, and a fault that the
instruction is to blame for. What fails elsewhere has no place: there was no room for the first
frame, or the output could not be flushed at the end.
-/

namespace BlockMachine
set_option autoImplicit false

variable {h : Host} {scope : Scope} {ws ws' : List String} {fault : Fault Slot}

section Reading

variable {slot : Slot}

theorem Scope.read_eq_error (hRead : Scope.read scope slot ws = .error fault ws') :
    fault.isInternal = true := by
  rw [Scope.read] at hRead
  cases hValue : scope[slot]? with
  | some v =>
    rw [hValue] at hRead
    cases hRead
  | none =>
    rw [hValue] at hRead
    cases hRead
    rfl

theorem Eval.int_eq_error {mnemonic : String}
    (hInt : Eval.int (Scope.read scope) mnemonic slot ws = .error fault ws') :
    fault.isInternal = true ∨ ∃ reason, scope.HoldsNoInt slot reason ∧
      fault = .coercion mnemonic slot .string .integer reason := by
  rcases Outcome.bind_eq_error_iff.mp hInt with hRead | ⟨v, ws₁, hRead, hRest⟩
  · exact .inl (Scope.read_eq_error hRead)
  · right
    cases hReading : v.toInt with
    | ok r =>
      rw [hReading] at hRest
      cases hRest
    | error reason =>
      rw [hReading] at hRest
      cases hRest
      cases v with
      | string bytes => exact ⟨reason, ⟨bytes, Scope.read_eq_ok hRead, hReading⟩, rfl⟩
      | unknown | integer n | boolean b => cases hReading

theorem Eval.name_eq_error (hName : Eval.name (Scope.read scope) slot ws = .error fault ws') :
    fault.isInternal = true := by
  rcases Outcome.bind_eq_error_iff.mp hName with hRead | ⟨v, ws₁, hRead, hRest⟩
  · exact Scope.read_eq_error hRead
  · cases hRest

end Reading

theorem Operator.ints_eq_error {op : Operator} {left right : Slot}
    {next : Int64 → Int64 → Eval Slot Value}
    (hInts : (do
      let m ← Eval.int (Scope.read scope) op.mnemonic left
      let n ← Eval.int (Scope.read scope) op.mnemonic right
      next m n : Eval Slot Value) ws = .error fault ws') (result : Slot) :
    fault.isInternal = true ∨ (Instr.binary op result left right).Blamed h scope fault ∨
      ∃ m n ws₂, scope.HoldsInt left m ∧ scope.HoldsInt right n ∧
        next m n ws₂ = .error fault ws' := by
  rcases Outcome.bind_eq_error_iff.mp hInts with hLeft | ⟨m, ws₁, hLeft, hRest⟩
  · rcases Eval.int_eq_error hLeft with hInternal | ⟨reason, hNoInt, rfl⟩
    · exact .inl hInternal
    · exact .inr (.inl (.left rfl hNoInt))
  · rcases Outcome.bind_eq_error_iff.mp hRest with hRight | ⟨n, ws₂, hRight, hNext⟩
    · rcases Eval.int_eq_error hRight with hInternal | ⟨reason, hNoInt, rfl⟩
      · exact .inl hInternal
      · exact .inr (.inl (.right rfl (Eval.int_eq_ok hLeft) hNoInt))
    · exact .inr (.inr ⟨m, n, ws₂, Eval.int_eq_ok hLeft, Eval.int_eq_ok hRight, hNext⟩)

theorem Operator.eval_eq_error {op : Operator} {left right : Slot}
    (hEval : op.eval (Scope.read scope) left right ws = .error fault ws') (result : Slot) :
    fault.isInternal = true ∨ (Instr.binary op result left right).Blamed h scope fault := by
  cases op with
  | concat | equal | notEqual =>
    left
    rcases Outcome.bind_eq_error_iff.mp hEval with hLeft | ⟨l, ws₁, hLeft, hRest⟩
    · exact Scope.read_eq_error hLeft
    · rcases Outcome.bind_eq_error_iff.mp hRest with hRight | ⟨r, ws₂, hRight, hResult⟩
      · exact Scope.read_eq_error hRight
      · cases hResult
  | arithmetic f =>
    obtain hInternal | hBlamed | ⟨m, n, ws₂, hLeft, hRight, hResult⟩ := ints_eq_error hEval result
    · exact .inl hInternal
    · exact .inr hBlamed
    · right
      cases hApply : f.apply m n with
      | some k =>
        rw [hApply] at hResult
        cases hResult
      | none =>
        rw [hApply] at hResult
        cases hResult
        exact .overflow rfl hLeft hRight hApply
  | comparison f =>
    obtain hInternal | hBlamed | ⟨m, n, ws₂, -, -, hResult⟩ := ints_eq_error hEval result
    · exact .inl hInternal
    · exact .inr hBlamed
    · cases hResult

theorem fetchConstant_eq_error {name : Slot} {qualified : Option Slot}
    (hFetch : fetchConstant h.constants.lookup (Scope.read scope) name qualified ws =
      .error fault ws') (result : Slot) :
    fault.isInternal = true ∨ (Instr.constFetch result name qualified).Blamed h scope fault := by
  rcases Outcome.bind_eq_error_iff.mp hFetch with hName | ⟨text, ws₁, hName, hRest⟩
  · exact .inl (Eval.name_eq_error hName)
  · obtain ⟨v, hv, rfl⟩ := Eval.name_eq_ok hName
    rcases Outcome.bind_eq_error_iff.mp hRest with hQualified | ⟨other, ws₂, hQualified, hResult⟩
    · left
      cases qualified with
      | none => cases hQualified
      | some q =>
        rcases Outcome.bind_eq_error_iff.mp hQualified with hRead | ⟨text, ws₃, -, hSome⟩
        · exact Eval.name_eq_error hRead
        · cases hSome
    · right
      cases hFound : other.bind h.constants.lookup <|> h.constants.lookup v.display with
      | some found =>
        rw [hFound] at hResult
        cases hResult
      | none =>
        rw [hFound] at hResult
        cases hResult
        have hOther := Eval.names_eq_ok hQualified
        rw [hOther]
        refine .undefinedConstant rfl hv ?_
        rw [Instr.value?_constFetch hv, ← hOther]
        exact hFound

theorem Instr.effect_eq_error {i : Instr}
    (hEffect : i.effect h.constants scope ws = .error fault ws') :
    fault.isInternal = true ∨ i.Blamed h scope fault := by
  cases i with
  | echo slot | assign result var expr | branch cond ifTrue ifFalse =>
    left
    rcases Outcome.bind_eq_error_iff.mp hEffect with hRead | ⟨v, ws₁, -, hRest⟩
    · exact Scope.read_eq_error hRead
    · cases hRest
  | binary op result left right =>
    rcases Outcome.bind_eq_error_iff.mp hEffect with hEval | ⟨v, ws₁, -, hRest⟩
    · exact Operator.eval_eq_error hEval result
    · cases hRest
  | constFetch result name qualified =>
    rcases Outcome.bind_eq_error_iff.mp hEffect with hFetch | ⟨v, ws₁, -, hRest⟩
    · exact fetchConstant_eq_error hFetch result
    · cases hRest
  | jump target => cases hEffect

theorem Scope.writeAll_eq_error {writes : List (Slot × Value)}
    (hWrite : scope.writeAll writes = .error fault) : fault.isInternal = true := by
  induction writes generalizing scope with
  | nil => cases hWrite
  | cons w writes ih =>
    obtain ⟨slot, v⟩ := w
    rw [writeAll, write] at hWrite
    split at hWrite
    · exact ih hWrite
    · cases hWrite
      rfl

namespace Machine

variable {p : Program} {limits : Limits} {s t : State} {a : Activation} {b : CodeBlock} {i : Instr}
  {failure : Option Failure} {f : Failure}

theorem overLimit_eq_some_iff {n : Nat} : overLimit limits n = some fault ↔
    ∃ m, limits.maxSteps = some m ∧ m < n ∧ fault = .stepLimit m := by
  constructor
  · intro hOver
    rw [overLimit] at hOver
    split at hOver
    · rename_i m hMax
      split at hOver
      · rename_i hLt
        cases hOver
        exact ⟨m, hMax, hLt, rfl⟩
      · cases hOver
    · cases hOver
  · rintro ⟨m, hMax, hLt, rfl⟩
    exact overLimit_eq_some hMax hLt

theorem perform_halt {effect : Effect Slot Label}
    (hPerform : perform p s b a effect = .halt t failure) :
    t.steps = s.steps ∧ ∃ fault, failure = some (s.failure b a fault) ∧ (fault.isInternal = true ∨
      ∃ bytes reason, effect = .output bytes ∧ (s.host.sink.writeAll bytes).1 = some reason ∧
        fault = .output reason) := by
  cases effect with
  | store writes =>
    rw [perform] at hPerform
    split at hPerform
    · cases hPerform
    · rename_i hWrite
      cases hPerform
      exact ⟨rfl, _, rfl, .inl (Scope.writeAll_eq_error hWrite)⟩
  | output bytes =>
    rw [perform] at hPerform
    split at hPerform
    · cases hPerform
    · rename_i reason sink hWrite
      cases hPerform
      exact ⟨rfl, _, rfl, .inr ⟨bytes, reason, rfl, congrArg Prod.fst hWrite, rfl⟩⟩
  | transfer target =>
    rw [perform] at hPerform
    split at hPerform
    · cases hPerform
    · cases hPerform
      exact ⟨rfl, _, rfl, .inl rfl⟩

/-- An instruction that the machine fails at is counted. It is one too many, or it is carried out
and to blame, unless the machine itself is. -/
theorem step_at_halt (hAt : s.At p a b (some i)) (hStep : step p limits s = .halt t failure) :
    t.steps = s.steps + 1 ∧ ∃ fault, failure = some (s.failure b a fault) ∧
      (overLimit limits (s.steps + 1) = some fault ∨
        overLimit limits (s.steps + 1) = none ∧
          (fault.isInternal = true ∨ i.Blamed s.host a.scope fault)) := by
  rw [step_at hAt] at hStep
  cases hLimit : overLimit limits (s.steps + 1) with
  | some fault =>
    rw [execute_of_over hLimit] at hStep
    cases hStep
    exact ⟨rfl, fault, rfl, .inl rfl⟩
  | none =>
    cases hEffect : i.effect s.host.constants a.scope [] with
    | error fault texts =>
      rw [execute_of_error hLimit hEffect] at hStep
      cases hStep
      exact ⟨rfl, fault, rfl, .inr ⟨rfl, Instr.effect_eq_error hEffect⟩⟩
    | ok effect texts =>
      rw [execute_of_ok hLimit hEffect] at hStep
      obtain ⟨hSteps, fault, rfl, hFault⟩ := perform_halt hStep
      refine ⟨hSteps, fault, rfl, .inr ⟨rfl, ?_⟩⟩
      rcases hFault with hInternal | ⟨bytes, reason, rfl, hWrite, rfl⟩
      · exact .inl hInternal
      · obtain ⟨slot, v, rfl, hv, rfl⟩ := Instr.effect_eq_ok hEffect
        exact .inr (.output rfl hv hWrite)

/-- A machine that halts, but not at an instruction, is done or in a block that does not exist. -/
theorem halt_of_idle (hIdle : ∀ a b i, ¬ s.At p a b (some i))
    (hStep : step p limits s = .halt t failure) :
    t.steps = s.steps ∧ ∀ f, failure = some f → f.fault.isInternal = true := by
  obtain hNone | ⟨a, hRunning, hBlock⟩ | ⟨a, b, hAt⟩ | ⟨a, b, i, hAt⟩ := stands p s
  · rw [step_of_none hNone, resume] at hStep
    split at hStep
    · cases hStep
      exact ⟨rfl, fun f hf => by cases hf⟩
    · cases hStep
    · cases hStep
  · rw [step_of_missing hRunning hBlock] at hStep
    cases hStep
    refine ⟨rfl, ?_⟩
    rintro f ⟨⟩
    rfl
  · rw [step_at_end hAt] at hStep
    cases hStep
  · exact absurd hAt (hIdle a b i)

section Runs

variable {entry : CodeBlock} {fuel : Nat} {report : Report}

theorem Visits.exists_run (hVisits : Visits p limits h s)
    (hStep : Machine.step p limits s = .halt t failure) :
    ∃ fuel, run fuel p limits h = some (conclude t failure) := by
  obtain ⟨hVerify, hRoom, entry, hEntry, hReaches⟩ := hVisits
  obtain ⟨n, hPasses⟩ := hReaches.exists_passes
  obtain ⟨fuel, hIterate⟩ := (Halts.of_passes hPasses (.of_step hStep)).exists_iterate
  refine ⟨fuel, ?_⟩
  rw [run_of_entry hVerify hEntry, runFrom_of_room hRoom, hIterate]
  rfl

/-- A verified program finds no room for its first frame, or it comes to a state that the machine
halts in. -/
theorem crowded_or_visits (hVerify : p.verify = .ok ()) (hEntry : p.entryBlock? = some entry)
    (hRun : run fuel p limits h = some report) :
    limits.maxFrames ≤ h.depth ∧
        report = conclude (start p entry h) (some { fault := .frameLimit limits.maxFrames }) ∨
      ∃ s t failure, Visits p limits h s ∧ step p limits s = .halt t failure ∧
        report = conclude t failure := by
  rw [run_of_entry hVerify hEntry] at hRun
  by_cases hCrowded : limits.maxFrames ≤ h.depth
  · rw [runFrom_of_crowded hCrowded] at hRun
    exact .inl ⟨hCrowded, (Option.some.inj hRun).symm⟩
  · have hRoom : h.depth < limits.maxFrames := Nat.lt_of_not_le hCrowded
    rw [runFrom_of_room hRoom] at hRun
    obtain ⟨⟨t, failure⟩, hIterate, rfl⟩ := Option.map_eq_some_iff.mp hRun
    obtain ⟨n, s, hPasses, hStep⟩ := Halts.of_iterate hIterate
    have hReaches := hPasses.reaches (.refl _)
    exact .inr ⟨s, t, failure, ⟨hVerify, hRoom, entry, hEntry, hReaches⟩, hStep, rfl⟩

theorem FailsAt.located (hFails : FailsAt p limits h s a b i f) :
    Located p limits h s a b i f := by
  obtain ⟨hVisits, hAt, ⟨t, hStep⟩, hExternal⟩ := hFails
  have hp := hVisits.wellFormed
  have hLabel : b.label = a.code := hp.label_eq hAt.block
  obtain ⟨-, fault, hFailure, hCause⟩ := step_at_halt hAt hStep
  cases hFailure
  constructor
  · have hLt : a.pc < b.lines.length := by
      rw [(hp.block hAt.block).lines_length]
      exact (List.getElem?_eq_some_iff.mp hAt.instr).1
    refine ⟨b.lines[a.pc], List.getElem?_eq_getElem hLt, ?_⟩
    rw [failure_location hAt, locate, CodeBlock.line, hLabel, List.getElem?_eq_getElem hLt]
    rfl
  · obtain ⟨entry, hEntry⟩ := Program.exists_block? hp.entry_lt
    obtain ⟨first, entered, n, hCourse⟩ := exists_course hVisits hAt.running
    obtain ⟨before, rfl, hFrom⟩ := hCourse.entered_eq hAt.running
    exact ⟨entry, first, before, n, hEntry, hCourse.pending hEntry, hCourse, hFrom⟩
  · rw [State.failure, hLabel]
    rfl
  · rcases hCause with hLimit | ⟨-, hInternal | hBlamed⟩
    · exact .inl (overLimit_eq_some_iff.mp hLimit)
    · cases hInternal.symm.trans hExternal
    · exact .inr hBlamed

theorem exists_failsAt (hVerify : p.verify = .ok ()) (hRun : run fuel p limits h = some report)
    (hResult : report.result = .error f) (hExternal : f.fault.isInternal = false) :
    (∃ s a b i, FailsAt p limits h s a b i f) ∨
      limits.maxFrames ≤ h.depth ∧ f = { fault := .frameLimit limits.maxFrames } ∨
      ∃ reason, report.host.sink.flush = some reason ∧ f = { fault := .output reason } := by
  obtain ⟨entry, hEntry⟩ := Program.exists_block? ((p.verify_eq_ok_iff).mp hVerify).entry_lt
  rcases crowded_or_visits hVerify hEntry hRun with
    ⟨hCrowded, rfl⟩ | ⟨s, t, failure, hVisits, hStep, rfl⟩
  · cases hResult
    exact .inr (.inl ⟨hCrowded, rfl⟩)
  · cases failure with
    | some g =>
      cases hResult
      obtain ⟨a, b, i, hAt⟩ | hIdle := at_or_idle p s
      · exact .inl ⟨s, a, b, i, hVisits, hAt, ⟨t, hStep⟩, hExternal⟩
      · have hInternal := (halt_of_idle hIdle hStep).2 f rfl
        cases hInternal.symm.trans hExternal
    | none =>
      right
      right
      rw [conclude_sink]
      cases hFlush : t.host.sink.flush with
      | some reason =>
        rw [conclude_of_unflushed t hFlush] at hResult
        cases hResult
        exact ⟨reason, rfl, rfl⟩
      | none =>
        rw [conclude_of_flushed t hFlush] at hResult
        cases hResult

/-- Failures point at what failed. If the run of a verified program comes to an instruction and
fails there, it is reported to have failed there: the failure names the place of the instruction,
the blocks that were on the stack, and a fault of the instruction. Nothing else fails but the first
frame, for want of room, the flush at the end, and the machine itself; and that one does not on
frames that belong to the program. -/
theorem run_failure_located (p : Program) (limits : Limits) (h : Host)
    (hVerify : p.verify = .ok ()) :
    (∀ s a b i f, FailsAt p limits h s a b i f →
      (∃ fuel report, run fuel p limits h = some report ∧ report.result = .error f) ∧
        Located p limits h s a b i f) ∧
    (∀ fuel report f, run fuel p limits h = some report → report.result = .error f →
      f.fault.isInternal = false →
      (∃ s a b i, FailsAt p limits h s a b i f) ∨
        limits.maxFrames ≤ h.depth ∧ f = { fault := .frameLimit limits.maxFrames } ∨
        ∃ reason, report.host.sink.flush = some reason ∧ f = { fault := .output reason }) ∧
    ((∀ f ∈ h.pending, f.Belongs p) → ∀ fuel report f, run fuel p limits h = some report →
      report.result = .error f → f.fault.isInternal = false) := by
  refine ⟨?_, ?_, ?_⟩
  · intro s a b i f hFails
    obtain ⟨t, hStep⟩ := hFails.halts
    obtain ⟨fuel, hRun⟩ := hFails.visits.exists_run hStep
    exact ⟨⟨fuel, _, hRun, rfl⟩, hFails.located⟩
  · intro fuel report f hRun hResult hExternal
    exact exists_failsAt hVerify hRun hResult hExternal
  · intro hPending fuel report f hRun hResult
    exact run_not_internal hVerify hPending hRun hResult

/-- Two blocks, of which the first leads to the second, where a letter is added to a number. -/
def misstep : Program where
  blocks := [
    { label := ⟨0⟩, origin := ⟨0⟩, instrs := [.jump ⟨1⟩], lines := [some 1] },
    { label := ⟨1⟩, origin := ⟨1⟩, instrs := [.binary (.arithmetic .plus) 2 0 1], lines := [some 2],
      constants := [⟨⟨0⟩, 0, .integer 1⟩, ⟨⟨1⟩, 1, .string [97]⟩], scopeSize := 3 }]
  entry := ⟨0⟩
  slotCount := 3

/-- A call back, and below it a frame of the second block. -/
def misstepHost : Host where
  pending := [.continuation "later",
    .block { code := ⟨1⟩, scope := #[.unknown, .unknown, .unknown] }]

/-- What the run fails with: the right operand, where the left one is an integer. -/
def misstepFailure : Failure where
  fault := .coercion "PLUS" 1 .string .integer (.nonNumeric "a")
  location := some {
    block := ⟨1⟩
    pc := 0
    mnemonic := "PLUS"
    line := some 2
    cameFrom := some ⟨0⟩ }
  callStack := [⟨1⟩, ⟨1⟩]

theorem run_failure_located_misstep :
    misstep.verify = .ok () ∧ (∀ f ∈ misstepHost.pending, f.Belongs misstep) ∧
    ∃ s a b i, FailsAt misstep {} misstepHost s a b i misstepFailure ∧
      Located misstep {} misstepHost s a b i misstepFailure := by
  have hVerify : misstep.verify = .ok () := rfl
  have hPending : ∀ f ∈ misstepHost.pending, f.Belongs misstep := by
    intro f hf
    simp only [misstepHost, List.mem_cons, List.not_mem_nil, or_false] at hf
    rcases hf with rfl | rfl
    · exact trivial
    · exact ⟨_, rfl, by decide, by decide⟩
  have hFailure : (run 9 misstep {} misstepHost).map Report.result =
      some (.error misstepFailure) := rfl
  obtain ⟨report, hRun, hResult⟩ := Option.map_eq_some_iff.mp hFailure
  obtain ⟨hLocated, hPlace, -⟩ := run_failure_located misstep {} misstepHost hVerify
  refine ⟨hVerify, hPending, ?_⟩
  rcases hPlace 9 report misstepFailure hRun hResult rfl with
    ⟨s, a, b, i, hFails⟩ | ⟨-, hFrames⟩ | ⟨reason, -, hFlush⟩
  · exact ⟨s, a, b, i, hFails, (hLocated s a b i misstepFailure hFails).2⟩
  · cases hFrames
  · cases hFlush

end Runs

end Machine

end BlockMachine
