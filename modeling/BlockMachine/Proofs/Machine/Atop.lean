import BlockMachine.Machine.Turns
import BlockMachine.Proofs.Machine.Transition

/-!
# Machines on top of others
A machine with an unlimited sink makes the same transitions on top of another, as long as the sink
below has room for what it writes. So what a frame does by itself it does on any stack, behind any
output.
-/

namespace BlockMachine
set_option autoImplicit false

theorem Failure.above_nil (f : Failure) : f.above [] = f := by
  rw [above, List.nil_append, ite_self]

theorem Sink.Fits.mono {s : Sink} {m n : Nat} (h : s.Fits n) (hLe : m ≤ n) : s.Fits m :=
  fun r hr => Nat.le_trans hLe (h r hr)

/-- The host at a later time of a run: frames were taken off, and output was added. -/
structure Host.Later (h later : Host) : Prop where
  constants : later.constants = h.constants
  pending : later.pending <:+ h.pending
  sink : ∃ more, later.sink = h.sink.after more

namespace Host.Later

variable {h later latest : Host}

theorem refl (h : Host) : h.Later h := ⟨rfl, List.suffix_refl _, [], (Sink.after_nil _).symm⟩

theorem trans (hFirst : h.Later later) (hSecond : later.Later latest) : h.Later latest := by
  obtain ⟨hConstants, hPending, more, hSink⟩ := hFirst
  obtain ⟨hConstants', hPending', newer, hSink'⟩ := hSecond
  refine ⟨hConstants'.trans hConstants, hPending'.trans hPending, newer ++ more, ?_⟩
  rw [hSink', hSink, Sink.after_after]

theorem unlimited (hLater : h.Later later) (hUnlimited : h.sink.Unlimited) :
    later.sink.Unlimited := by
  obtain ⟨more, hSink⟩ := hLater.sink
  rw [hSink]
  exact hUnlimited.after more

theorem length_taken_le (hLater : h.Later later) : h.sink.taken.length ≤ later.sink.taken.length := by
  obtain ⟨more, hSink⟩ := hLater.sink
  rw [hSink, Sink.after, List.length_append]
  exact Nat.le_add_left _ _

end Host.Later

namespace Machine

def Transition.state : Transition → State
  | .next s => s
  | .halt s _ => s

def Transition.atop (below : State) : Transition → Transition
  | .next s => .next (s.atop below)
  | .halt s failure => .halt (s.atop below) (failure.map (·.above below.host.codes))

variable {p : Program} {limits : Limits} {s t below : State} {a : Activation} {b : CodeBlock}
  {i : Instr}

section Later

theorem perform_later (hs : s.host.sink.Unlimited) (effect : Effect Slot Label) :
    s.host.Later (perform p s b a effect).state.host := by
  cases effect with
  | store writes =>
    rw [perform]
    split <;> exact .refl _
  | output bytes =>
    rw [perform_of_written (Sink.writeAll_of_fits (hs.fits bytes.length))]
    exact ⟨rfl, List.suffix_refl _, bytes.reverse, rfl⟩
  | transfer target =>
    rw [perform]
    split <;> exact .refl _

theorem execute_later (hs : s.host.sink.Unlimited) :
    s.host.Later (execute p limits s b a i).state.host := by
  obtain ⟨texts, ⟨fault, hFail⟩ | ⟨effect, -, -, hPerform⟩⟩ := execute_cases p limits s b a i
  · rw [hFail]
    exact .refl _
  · rw [hPerform]
    exact perform_later (s := (s.count a i).warn texts) hs effect

theorem step_later (hs : s.host.sink.Unlimited) : s.host.Later (step p limits s).state.host := by
  obtain hNone | ⟨a, hRunning, hBlock⟩ | ⟨a, b, hAt⟩ | ⟨a, b, i, hAt⟩ := stands p s
  · have hRest (f : Frame) (rest : List Frame) (h : s.host.pending = f :: rest) :
        s.host.Later { s.host with pending := rest } :=
      ⟨rfl, h ▸ List.suffix_cons f rest, [], (Sink.after_nil _).symm⟩
    rw [step_of_none hNone, resume]
    split
    · exact .refl _
    · rename_i name rest hPending
      exact hRest _ rest hPending
    · rename_i a rest hPending
      exact hRest _ rest hPending
  · rw [step_of_missing hRunning hBlock]
    exact .refl _
  · rw [step_at_end hAt]
    exact .refl _
  · rw [step_at hAt]
    exact execute_later hs

theorem perform_halt_host (hs : s.host.sink.Unlimited) {effect : Effect Slot Label}
    {failure : Option Failure} (h : perform p s b a effect = .halt t failure) : t.host = s.host := by
  cases effect with
  | store writes =>
    rw [perform] at h
    split at h <;> cases h
    rfl
  | output bytes =>
    rw [perform_of_written (Sink.writeAll_of_fits (hs.fits bytes.length))] at h
    cases h
  | transfer target =>
    rw [perform] at h
    split at h <;> cases h
    rfl

theorem step_halt_host (hs : s.host.sink.Unlimited) {failure : Option Failure}
    (h : step p limits s = .halt t failure) : t.host = s.host := by
  obtain hNone | ⟨a, hRunning, hBlock⟩ | ⟨a, b, hAt⟩ | ⟨a, b, i, hAt⟩ := stands p s
  · rw [step_of_none hNone, resume] at h
    split at h <;> cases h
    rfl
  · rw [step_of_missing hRunning hBlock] at h
    cases h
    rfl
  · rw [step_at_end hAt] at h
    cases h
  · rw [step_at hAt] at h
    obtain ⟨texts, ⟨fault, hFail⟩ | ⟨effect, -, -, hPerform⟩⟩ := execute_cases p limits s b a i
    · rw [hFail] at h
      cases h
      rfl
    · rw [hPerform] at h
      exact perform_halt_host (s := (s.count a i).warn texts) hs h

theorem Reaches.later (h : Reaches p limits s t) (hs : s.host.sink.Unlimited) :
    s.host.Later t.host := by
  induction h with
  | refl => exact .refl _
  | @step t u _ hStep ih =>
    have hLater : t.host.Later (Machine.step p limits t).state.host := step_later (ih.unlimited hs)
    rw [hStep] at hLater
    exact ih.trans hLater

end Later

section Called

theorem called_warn (s : State) (texts : List String) : (s.warn texts).called = s.called := by
  have hWarned (texts : List String) :
      (texts.map Event.warned).filterMap Event.continuation? = [] := by
    rw [List.filterMap_map]
    exact List.filterMap_eq_nil_iff.mpr fun _ _ => rfl
  exact called_of_trail _ rfl (hWarned texts.reverse)

theorem perform_called (effect : Effect Slot Label) :
    (perform p s b a effect).state.called = s.called := by
  cases effect with
  | store writes =>
    rw [perform]
    split <;> rfl
  | output bytes =>
    rw [perform]
    split <;> rfl
  | transfer target =>
    rw [perform]
    split
    · exact called_of_trail [.transferred a.code target] rfl rfl
    · rfl

theorem step_called (hPending : s.host.pending = []) :
    (step p limits s).state.called = s.called := by
  obtain hNone | ⟨a, hRunning, hBlock⟩ | ⟨a, b, hAt⟩ | ⟨a, b, i, hAt⟩ := stands p s
  · rw [step_of_none hNone, resume, hPending]
    rfl
  · rw [step_of_missing hRunning hBlock]
    rfl
  · rw [step_at_end hAt]
    rfl
  · rw [step_at hAt]
    obtain ⟨texts, ⟨fault, hFail⟩ | ⟨effect, -, -, hPerform⟩⟩ := execute_cases p limits s b a i
    · rw [hFail]
      exact (called_warn _ texts).trans (called_count s a i)
    · rw [hPerform, perform_called]
      exact (called_warn _ texts).trans (called_count s a i)

end Called

section Atop

theorem failure_atop (s below : State) (b : CodeBlock) (a : Activation) (fault : Fault Slot) :
    (s.atop below).failure b a fault = (s.failure b a fault).above below.host.codes := by
  have hCodes : (s.atop below).host.codes = below.host.codes ++ s.host.codes := by
    rw [Host.codes, State.atop, List.filterMap_append, List.reverse_append]
    rfl
  rw [State.failure, hCodes, List.append_assoc]
  rfl

theorem warn_atop (s below : State) (texts : List String) :
    (s.warn texts).atop below = (s.atop below).warn texts := by
  rw [State.warn, State.atop, State.warn, State.atop, List.append_assoc]

theorem perform_atop (hs : s.host.sink.Unlimited) {effect : Effect Slot Label}
    (hFits : below.host.sink.Fits (perform p s b a effect).state.host.sink.taken.length) :
    perform p (s.atop below) b a effect = (perform p s b a effect).atop below := by
  cases effect with
  | store writes =>
    rw [perform, perform]
    cases a.scope.writeAll writes with
    | ok scope => rfl
    | error fault =>
      dsimp only
      rw [failure_atop]
      rfl
  | output bytes =>
    have hPerform := perform_of_written (p := p) (b := b) (a := a)
      (Sink.writeAll_of_fits (hs.fits bytes.length))
    rw [hPerform] at hFits
    have hRoom : (s.atop below).host.sink.Fits bytes.length := by
      apply Sink.fits_of_after
      rw [← List.length_reverse, ← List.length_append]
      exact hFits
    have hSink : (s.atop below).host.sink.after bytes.reverse =
        below.host.sink.after (s.host.sink.after bytes.reverse).taken := Sink.after_after _ _ _
    rw [hPerform, perform_of_written (Sink.writeAll_of_fits hRoom), hSink]
    rfl
  | transfer target =>
    rw [perform, perform]
    cases p.block? target with
    | some next => rfl
    | none =>
      dsimp only
      rw [failure_atop]
      rfl

theorem execute_atop (hs : s.host.sink.Unlimited)
    (hFits : below.host.sink.Fits (execute p limits s b a i).state.host.sink.taken.length) :
    execute p limits (s.atop below) b a i = (execute p limits s b a i).atop below := by
  cases hLimit : overLimit limits (s.steps + 1) with
  | some fault =>
    have hLimit' : overLimit limits ((s.atop below).steps + 1) = some fault := hLimit
    rw [execute_of_over hLimit, execute_of_over hLimit']
    exact congrArg (fun f => Transition.halt _ (some f)) (failure_atop (s.count a i) below b a fault)
  | none =>
    have hLimit' : overLimit limits ((s.atop below).steps + 1) = none := hLimit
    cases hEffect : i.effect s.host.constants a.scope [] with
    | ok effect texts =>
      have hEffect' : i.effect (s.atop below).host.constants a.scope [] = .ok effect texts := hEffect
      have hCounted : ((s.count a i).warn texts).host.sink.Unlimited := hs
      rw [execute_of_ok hLimit hEffect] at hFits
      rw [execute_of_ok hLimit hEffect, execute_of_ok hLimit' hEffect',
        ← perform_atop hCounted hFits, warn_atop]
      rfl
    | error fault texts =>
      have hEffect' : i.effect (s.atop below).host.constants a.scope [] = .error fault texts :=
        hEffect
      have hWarn : ((s.atop below).count a i).warn texts = ((s.count a i).warn texts).atop below :=
        (warn_atop (s.count a i) below texts).symm
      rw [execute_of_error hLimit hEffect, execute_of_error hLimit' hEffect', hWarn, failure_atop]
      rfl

theorem State.At.atop {o : Option Instr} (hAt : s.At p a b o) (below : State) :
    (s.atop below).At p a b o := ⟨hAt.running, hAt.block, hAt.instr⟩

/-- A machine that is not over makes the same transition on top of another. -/
theorem step_atop (hs : s.host.sink.Unlimited) (hMore : s.running ≠ none ∨ s.host.pending ≠ [])
    (hFits : below.host.sink.Fits (step p limits s).state.host.sink.taken.length) :
    step p limits (s.atop below) = (step p limits s).atop below := by
  obtain hNone | ⟨a, hRunning, hBlock⟩ | ⟨a, b, hAt⟩ | ⟨a, b, i, hAt⟩ := stands p s
  · have hNone' : (s.atop below).running = none := hNone
    rw [step_of_none hNone, step_of_none hNone', resume, resume]
    cases hPending : s.host.pending with
    | nil => exact absurd hPending (hMore.resolve_left fun h => h hNone)
    | cons f rest =>
      have hPending' : (s.atop below).host.pending = f :: (rest ++ below.host.pending) :=
        congrArg (· ++ below.host.pending) hPending
      rw [hPending']
      cases f <;> rfl
  · have hRunning' : (s.atop below).running = some a := hRunning
    rw [step_of_missing hRunning hBlock, step_of_missing hRunning' hBlock]
    rfl
  · rw [step_at_end hAt, step_at_end (hAt.atop below)]
    rfl
  · rw [step_at hAt] at hFits
    rw [step_at hAt, step_at (hAt.atop below)]
    exact execute_atop hs hFits

theorem more_of_step (h : step p limits s ≠ .halt s none) :
    s.running ≠ none ∨ s.host.pending ≠ [] := by
  by_cases hNone : s.running = none
  · right
    intro hPending
    rw [step_of_none hNone, resume, hPending] at h
    exact h rfl
  · exact .inl hNone

theorem step_atop_next (hs : s.host.sink.Unlimited) (h : step p limits s = .next t)
    (hFits : below.host.sink.Fits t.host.sink.taken.length) :
    step p limits (s.atop below) = .next (t.atop below) := by
  have hMore := more_of_step (p := p) (s := s) (by rw [h]; rintro ⟨⟩)
  rw [step_atop hs hMore (by rw [h]; exact hFits), h]
  rfl

theorem step_atop_failure {f : Failure} (hs : s.host.sink.Unlimited)
    (h : step p limits s = .halt t (some f))
    (hFits : below.host.sink.Fits t.host.sink.taken.length) :
    step p limits (s.atop below) = .halt (t.atop below) (some (f.above below.host.codes)) := by
  have hMore := more_of_step (p := p) (s := s) (by rw [h]; rintro ⟨⟩)
  rw [step_atop hs hMore (by rw [h]; exact hFits), h]
  rfl

/-- Where nothing is pending below, a machine halts as it does by itself. -/
theorem step_atop_halt {failure : Option Failure} (hs : s.host.sink.Unlimited)
    (hBelow : below.host.pending = []) (h : step p limits s = .halt t failure)
    (hFits : below.host.sink.Fits t.host.sink.taken.length) :
    step p limits (s.atop below) = .halt (t.atop below) failure := by
  cases failure with
  | some f =>
    have hCodes : below.host.codes = [] := by rw [Host.codes, hBelow]; rfl
    rw [step_atop_failure hs h hFits, hCodes, Failure.above_nil]
  | none =>
    obtain ⟨rfl, hNone, hPending⟩ := halt_of_success h
    have hNone' : (t.atop below).running = none := hNone
    have hPending' : (t.atop below).host.pending = [] := by
      rw [State.atop, hPending, hBelow]
      rfl
    rw [step_of_none hNone', resume, hPending']

theorem Passes.atop {n : Nat} (h : Passes p limits n s t) (hs : s.host.sink.Unlimited)
    (hFits : below.host.sink.Fits t.host.sink.taken.length) :
    Passes p limits n (s.atop below) (t.atop below) := by
  induction h with
  | refl => exact .refl _
  | @head n s t u hStep hRest ih =>
    have hLater : s.host.Later (step p limits s).state.host := step_later hs
    rw [hStep] at hLater
    have ht : t.host.sink.Unlimited := hLater.unlimited hs
    have hLe := ((hRest.reaches (.refl t)).later ht).length_taken_le
    exact .head (step_atop_next hs hStep (hFits.mono hLe)) (ih ht hFits)

end Atop

end Machine

end BlockMachine
