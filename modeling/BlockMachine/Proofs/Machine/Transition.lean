import BlockMachine.Machine.Count
import BlockMachine.Proofs.Machine.Passage

/-!
# Single transitions
What one transition can be, and what it leaves alone. All that a frame does is done by
instructions: the transitions between them end a frame, take up the next one, or call the host, and
neither count nor write.
-/

namespace BlockMachine.Machine
set_option autoImplicit false

variable {p : Program} {limits : Limits} {s t : State} {a : Activation} {b : CodeBlock} {i : Instr}

theorem step_of_none (h : s.running = none) : step p limits s = resume s := by rw [step, h]

theorem step_of_missing (h : s.running = some a) (hBlock : p.block? a.code = none) :
    step p limits s =
      .halt s (some { fault := .internal s!"{a.code.text} does not exist" }) := by
  rw [step, h]
  dsimp only
  rw [hBlock]

theorem step_at_end (hAt : s.At p a b none) : step p limits s = .next { s with running := none } := by
  rw [step, hAt.running]
  dsimp only
  rw [hAt.block]
  dsimp only
  rw [hAt.instr]

theorem failure_location (hAt : s.At p a b (some i)) (t : State) (fault : Fault Slot) :
    (t.failure b a fault).location = some (locate b a i) := by
  rw [State.failure, hAt.instr]
  rfl

/-- A machine is between two frames, in a block that does not exist, at the end of a block, or at
an instruction. -/
theorem stands (p : Program) (s : State) :
    s.running = none ∨ (∃ a, s.running = some a ∧ p.block? a.code = none) ∨
      (∃ a b, s.At p a b none) ∨ ∃ a b i, s.At p a b (some i) := by
  cases hRunning : s.running with
  | none => exact .inl rfl
  | some a =>
    cases hBlock : p.block? a.code with
    | none => exact .inr (.inl ⟨a, rfl, hBlock⟩)
    | some b =>
      cases hInstr : b.instrs[a.pc]? with
      | none => exact .inr (.inr (.inl ⟨a, b, hRunning, hBlock, hInstr⟩))
      | some i => exact .inr (.inr (.inr ⟨a, b, i, hRunning, hBlock, hInstr⟩))

theorem at_or_idle (p : Program) (s : State) :
    (∃ a b i, s.At p a b (some i)) ∨ ∀ a b i, ¬ s.At p a b (some i) := by
  refine (Classical.em _).imp_right fun hNone a b i hAt => ?_
  exact hNone ⟨a, b, i, hAt⟩

theorem execute_of_over {fault : Fault Slot} (hLimit : overLimit limits (s.steps + 1) = some fault) :
    execute p limits s b a i = .halt (s.count a i) (some ((s.count a i).failure b a fault)) := by
  rw [execute]
  dsimp only
  rw [hLimit]
  rfl

theorem execute_of_ok {effect : Effect Slot Label} {texts : List String}
    (hLimit : overLimit limits (s.steps + 1) = none)
    (hEffect : i.effect s.host.constants a.scope [] = .ok effect texts) :
    execute p limits s b a i = perform p ((s.count a i).warn texts) b a effect := by
  rw [execute]
  dsimp only
  rw [hLimit]
  dsimp only
  rw [State.report_host, hEffect]
  rfl

theorem execute_of_error {fault : Fault Slot} {texts : List String}
    (hLimit : overLimit limits (s.steps + 1) = none)
    (hEffect : i.effect s.host.constants a.scope [] = .error fault texts) :
    execute p limits s b a i = .halt ((s.count a i).warn texts)
      (some (((s.count a i).warn texts).failure b a fault)) := by
  rw [execute]
  dsimp only
  rw [hLimit]
  dsimp only
  rw [State.report_host, hEffect]
  rfl

/-- Carrying out an instruction counts it and may warn; then it fails on the spot, or has its
effect. -/
theorem execute_cases (p : Program) (limits : Limits) (s : State) (b : CodeBlock) (a : Activation)
    (i : Instr) :
    ∃ texts, (∃ fault, execute p limits s b a i = .halt ((s.count a i).warn texts)
        (some (((s.count a i).warn texts).failure b a fault))) ∨
      ∃ effect, overLimit limits (s.steps + 1) = none ∧
        i.effect s.host.constants a.scope [] = .ok effect texts ∧
        execute p limits s b a i = perform p ((s.count a i).warn texts) b a effect := by
  cases hLimit : overLimit limits (s.steps + 1) with
  | some fault => exact ⟨[], .inl ⟨fault, execute_of_over hLimit⟩⟩
  | none =>
    cases hEffect : i.effect s.host.constants a.scope [] with
    | ok effect texts => exact ⟨texts, .inr ⟨effect, rfl, rfl, execute_of_ok hLimit hEffect⟩⟩
    | error fault texts => exact ⟨texts, .inl ⟨fault, execute_of_error hLimit hEffect⟩⟩

theorem perform_of_written {bytes : List UInt8} {sink : Sink}
    (hWrite : s.host.sink.writeAll bytes = (none, sink)) :
    perform p s b a (.output bytes) =
      .next { s with running := some { a with pc := a.pc + 1 }, host.sink := sink } := by
  rw [perform, hWrite]

theorem perform_of_refused {bytes : List UInt8} {sink : Sink} {reason : String}
    (hWrite : s.host.sink.writeAll bytes = (some reason, sink)) :
    perform p s b a (.output bytes) =
      .halt { s with host.sink := sink } (some (s.failure b a (.output reason))) := by
  rw [perform, hWrite]

theorem perform_next {effect : Effect Slot Label} (h : perform p s b a effect = .next t) :
    t.steps = s.steps ∧ ((∃ bytes, effect = .output bytes ∧
      s.host.sink.writeAll bytes = (none, t.host.sink)) ∨ t.host.sink = s.host.sink) := by
  cases effect with
  | store writes =>
    rw [perform] at h
    split at h
    · cases h
      exact ⟨rfl, .inr rfl⟩
    · cases h
  | output bytes =>
    rw [perform] at h
    split at h
    · rename_i sink hWrite
      cases h
      exact ⟨rfl, .inl ⟨bytes, rfl, hWrite⟩⟩
    · cases h
  | transfer target =>
    rw [perform] at h
    split at h
    · cases h
      exact ⟨rfl, .inr rfl⟩
    · cases h

theorem perform_halt_ne_none {effect : Effect Slot Label} {failure : Option Failure}
    (h : perform p s b a effect = .halt t failure) : failure ≠ none := by
  rintro rfl
  cases effect with
  | store writes =>
    rw [perform] at h
    split at h <;> cases h
  | output bytes =>
    rw [perform] at h
    split at h <;> cases h
  | transfer target =>
    rw [perform] at h
    split at h <;> cases h

theorem execute_halt_ne_none {failure : Option Failure}
    (h : execute p limits s b a i = .halt t failure) : failure ≠ none := by
  obtain ⟨texts, ⟨fault, hFail⟩ | ⟨effect, -, -, hPerform⟩⟩ := execute_cases p limits s b a i
  · rw [hFail] at h
    cases h
    exact Option.some_ne_none _
  · rw [hPerform] at h
    exact perform_halt_ne_none h

theorem execute_next (h : execute p limits s b a i = .next t) :
    overLimit limits (s.steps + 1) = none ∧ ∃ effect texts,
      i.effect s.host.constants a.scope [] = .ok effect texts ∧
        perform p ((s.count a i).warn texts) b a effect = .next t := by
  obtain ⟨texts, ⟨fault, hFail⟩ | ⟨effect, hLimit, hEffect, hPerform⟩⟩ :=
    execute_cases p limits s b a i
  · rw [hFail] at h
    cases h
  · exact ⟨hLimit, effect, texts, hEffect, hPerform.symm.trans h⟩

theorem step_at_next (hAt : s.At p a b (some i)) (h : step p limits s = .next t) :
    overLimit limits (s.steps + 1) = none ∧ t.steps = s.steps + 1 := by
  rw [step_at hAt] at h
  obtain ⟨hLimit, effect, texts, -, hPerform⟩ := execute_next h
  exact ⟨hLimit, (perform_next hPerform).1⟩

/-- A transition that is not an instruction's takes a frame off the stack, or ends one. -/
theorem step_idle (hIdle : ∀ a b i, ¬ s.At p a b (some i)) (h : step p limits s = .next t) :
    t.host.constants = s.host.constants ∧ t.host.sink = s.host.sink ∧ t.steps = s.steps ∧
      t.trail.filterMap Event.warning? = s.trail.filterMap Event.warning? ∧
      2 * t.host.pending.length + t.running.toList.length <
        2 * s.host.pending.length + s.running.toList.length := by
  obtain hNone | ⟨a, hRunning, hBlock⟩ | ⟨a, b, hAt⟩ | ⟨a, b, i, hAt⟩ := stands p s
  · rw [step_of_none hNone, resume] at h
    split at h
    · cases h
    · rename_i name rest hPending
      cases h
      refine ⟨rfl, rfl, rfl, rfl, ?_⟩
      rw [hPending, State.report_running, hNone, List.length_cons]
      dsimp only
      omega
    · rename_i a rest hPending
      cases h
      refine ⟨rfl, rfl, rfl, rfl, ?_⟩
      rw [hPending, hNone, List.length_cons]
      dsimp only [Option.toList]
      rw [List.length_singleton, List.length_nil]
      omega
  · rw [step_of_missing hRunning hBlock] at h
    cases h
  · rw [step_at_end hAt] at h
    cases h
    refine ⟨rfl, rfl, rfl, rfl, ?_⟩
    rw [hAt.running]
    exact Nat.lt_add_one _
  · exact absurd hAt (hIdle a b i)

theorem halt_of_success (h : step p limits s = .halt t none) :
    t = s ∧ s.running = none ∧ s.host.pending = [] := by
  obtain hNone | ⟨a, hRunning, hBlock⟩ | ⟨a, b, hAt⟩ | ⟨a, b, i, hAt⟩ := stands p s
  · rw [step_of_none hNone, resume] at h
    split at h
    · rename_i hPending
      cases h
      exact ⟨rfl, hNone, hPending⟩
    · cases h
    · cases h
  · rw [step_of_missing hRunning hBlock] at h
    cases h
  · rw [step_at_end hAt] at h
    cases h
  · rw [step_at hAt] at h
    exact absurd rfl (execute_halt_ne_none h)

theorem called_of_trail (new : List Event) (hTrail : t.trail = new ++ s.trail)
    (hNew : new.filterMap Event.continuation? = []) : t.called = s.called := by
  rw [State.called, State.called, List.filterMap_reverse, List.filterMap_reverse, hTrail,
    List.filterMap_append, hNew, List.nil_append]

theorem called_count (s : State) (a : Activation) (i : Instr) : (s.count a i).called = s.called :=
  called_of_trail [.reached a.code a.pc i.mnemonic] rfl rfl

theorem warnings_count (s : State) (a : Activation) (i : Instr) :
    (s.count a i).warnings = s.warnings := by
  rw [State.warnings, State.warnings, List.filterMap_reverse, List.filterMap_reverse]
  rfl

section Conclude

variable (s : State) (failure : Option Failure)

theorem conclude_sink : (conclude s failure).host.sink = s.host.sink := by
  cases failure with
  | some f => rfl
  | none =>
    rw [conclude]
    split <;> rfl

theorem conclude_steps : (conclude s failure).steps = s.steps := by
  cases failure with
  | some f => rfl
  | none =>
    rw [conclude]
    split <;> rfl

theorem conclude_warnings : (conclude s failure).warnings = s.warnings := by
  have hLast (e : Event) (he : e.warning? = none) :
      (e :: s.trail).reverse.filterMap Event.warning? = s.warnings := by
    rw [State.warnings, List.filterMap_reverse, List.filterMap_reverse, List.filterMap_cons_none he]
  cases failure with
  | some f => exact hLast _ rfl
  | none =>
    rw [conclude]
    split
    · rfl
    · exact hLast _ rfl

theorem conclude_called : (conclude s failure).called = s.called := by
  have hLast (e : Event) (he : e.continuation? = none) :
      (e :: s.trail).reverse.filterMap Event.continuation? = s.called := by
    rw [State.called, List.filterMap_reverse, List.filterMap_reverse, List.filterMap_cons_none he]
  cases failure with
  | some f => exact hLast _ rfl
  | none =>
    rw [conclude]
    split
    · rfl
    · exact hLast _ rfl

theorem conclude_of_flushed (h : s.host.sink.flush = none) :
    (conclude s none).result = .ok () := by rw [conclude, h]

theorem conclude_of_unflushed {reason : String} (h : s.host.sink.flush = some reason) :
    (conclude s none).result = .error { fault := .output reason } := by rw [conclude, h]

end Conclude

end BlockMachine.Machine
