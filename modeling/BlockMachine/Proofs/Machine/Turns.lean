import BlockMachine.Proofs.Machine.Atop
import BlockMachine.Proofs.Machine.Budget

/-!
# Running frames in turn
The frames on a stack do not get in each other's way. A run is, at any time, between two frames or
where the current frame would be by itself; what it shows is what the frames show by themselves, in
the order of the stack, up to the first one that fails.
-/

namespace BlockMachine.Machine
set_option autoImplicit false

variable {p : Program} {limits : Limits} {constants : Constants} {s t u : State} {n : Nat}
  {past ahead frames : List Frame} {first second part : Part}

theorem Part.andThen_assoc (first second third : Part) :
    (first.andThen second).andThen third = first.andThen (second.andThen third) := by
  rw [andThen, andThen, andThen, andThen, List.append_assoc, List.append_assoc]

theorem Part.andThen_done (hFirst : first.failure = none) :
    first.andThen { steps := first.steps } = first := by
  rw [andThen, List.append_nil, List.append_nil, ← hFirst]

theorem alone_unlimited (constants : Constants) (n : Nat) (a : Activation) :
    (alone constants n a).host.sink.Unlimited := ⟨rfl, rfl⟩

/-- A frame by itself stays by itself. -/
structure Lone (constants : Constants) (s : State) : Prop where
  pending : s.host.pending = []
  constants : s.host.constants = constants
  unlimited : s.host.sink.Unlimited

theorem Reaches.lone {a : Activation} (h : Reaches p limits (alone constants n a) t) :
    Lone constants t := by
  have hUnlimited := alone_unlimited constants n a
  have hLater := h.later hUnlimited
  exact ⟨List.suffix_nil.mp hLater.pending, hLater.constants, hLater.unlimited hUnlimited⟩

theorem Reaches.halts_alone {a : Activation} (h : Reaches p limits (alone constants n a) t)
    (hNone : t.running = none) : Halts p limits (alone constants n a) t none := by
  obtain ⟨k, hPasses⟩ := h.exists_passes
  have hHalt : Machine.step p limits t = .halt t none := by
    rw [step_of_none hNone, resume, h.lone.pending]
  exact ⟨k, t, hPasses, hHalt⟩

theorem Reaches.called (h : Reaches p limits s t) (hs : s.host.sink.Unlimited)
    (hPending : s.host.pending = []) : t.called = s.called := by
  induction h with
  | refl => rfl
  | @step t u hReaches hStep ih =>
    have hNone : t.host.pending = [] :=
      List.suffix_nil.mp (hPending ▸ (hReaches.later hs).pending)
    have hCalled : (Machine.step p limits t).state.called = t.called := step_called hNone
    rw [hStep] at hCalled
    exact hCalled.trans ih

theorem called_of_alone {a : Activation} {last : State} {failure : Option Failure}
    (h : Halts p limits (alone constants n a) last failure) : last.called = [] := by
  obtain ⟨k, v, hPasses, hStep⟩ := h
  have hReaches : Reaches p limits (alone constants n a) v := hPasses.reaches (.refl _)
  have hCalled : (step p limits v).state.called = v.called := step_called hReaches.lone.pending
  rw [hStep] at hCalled
  exact hCalled.trans (hReaches.called (alone_unlimited constants n a) rfl)

namespace InTurn

theorem append (hFirst : InTurn p limits constants n past first) (hPast : first.failure = none)
    (hSecond : InTurn p limits constants first.steps ahead second) :
    InTurn p limits constants n (past ++ ahead) (first.andThen second) := by
  induction hFirst with
  | done n => exact hSecond
  | call _ ih =>
    rw [Part.andThen_assoc]
    exact .call (ih hPast hSecond)
  | block hHalts _ ih =>
    rw [Part.andThen_assoc]
    exact .block hHalts (ih hPast hSecond)
  | fail => cases hPast

/-- The host functions called are those of the frames up to the one that fails. -/
theorem called (h : InTurn p limits constants n frames part) :
    ∃ past ahead, frames = past ++ ahead ∧
      part.events.filterMap Event.continuation? = past.filterMap Frame.continuation? ∧
      (part.failure = none → ahead = []) ∧
      (part.failure ≠ none → ∃ a rest, ahead = .block a :: rest) := by
  induction h with
  | done n => exact ⟨[], [], rfl, rfl, fun _ => rfl, fun h => absurd rfl h⟩
  | @call n name rest part _ ih =>
    obtain ⟨past, ahead, rfl, hCalled, hDone, hFailed⟩ := ih
    refine ⟨.continuation name :: past, ahead, rfl, ?_, hDone, hFailed⟩
    exact congrArg (name :: ·) hCalled
  | @block n a rest last part hHalts _ ih =>
    obtain ⟨past, ahead, rfl, hCalled, hDone, hFailed⟩ := ih
    refine ⟨.block a :: past, ahead, rfl, ?_, hDone, hFailed⟩
    have hNone : last.part.events.filterMap Event.continuation? = [] := called_of_alone hHalts
    rw [Part.andThen, List.filterMap_append, hNone, hCalled]
    rfl
  | @fail n a rest last f hHalts =>
    refine ⟨[], _, rfl, ?_, ?_, fun _ => ⟨a, rest, rfl⟩⟩
    · exact called_of_alone hHalts
    · rintro ⟨⟩

end InTurn

section Between

theorem between_atop (hNone : t.running = none) (hLone : Lone s.host.constants t) :
    t.atop (between s part ahead) = between s (part.andThen t.part) ahead := by
  rw [State.atop, between, between, Part.andThen, State.part, Sink.after_after, Sink.kept]
  simp only [hNone, hLone.pending, hLone.constants, List.nil_append, List.reverse_append,
    List.reverse_reverse, List.append_assoc]

theorem between_start (s : State) (hNone : s.running = none) :
    between s { steps := s.steps } s.host.pending = s := by
  rw [between, List.reverse_nil, Sink.after_nil, ← hNone]
  rfl

theorem step_between_nil : step p limits (between s part []) = .halt (between s part []) none := rfl

theorem step_between_call {name : String} :
    step p limits (between s part (.continuation name :: ahead)) =
      .next (between s (part.andThen { events := [.called name], steps := part.steps }) ahead) := by
  have hResume : step p limits (between s part (.continuation name :: ahead)) =
      .next ((between s part ahead).report (.called name)) := rfl
  rw [hResume, State.report, between, between, Part.andThen, List.append_nil, List.reverse_append,
    List.append_assoc]
  rfl

theorem step_between_block {a : Activation} :
    step p limits (between s part (.block a :: ahead)) =
      .next ((alone s.host.constants part.steps a).atop (between s part ahead)) := by
  have hResume : step p limits (between s part (.block a :: ahead)) =
      .next { between s part ahead with running := some a } := rfl
  rw [hResume, State.atop]
  dsimp only [alone]
  rw [Sink.after_nil]
  rfl

end Between

/-- Since the one state, the machine has shown a part. -/
structure Shown (s : State) (part : Part) (t : State) : Prop where
  sink : t.host.sink = s.host.sink.after part.output.reverse
  steps : t.steps = part.steps
  trail : t.trail = part.events.reverse ++ s.trail

theorem shown_between (s : State) (part : Part) (ahead : List Frame) :
    Shown s part (between s part ahead) := ⟨rfl, rfl, rfl⟩

theorem shown_atop (s t : State) (part : Part) (ahead : List Frame) (failure : Option Failure) :
    Shown s (part.andThen { t.part with failure }) (t.atop (between s part ahead)) := by
  refine ⟨?_, rfl, ?_⟩
  · rw [Part.andThen, List.reverse_append, ← Sink.after_after]
    dsimp only [State.part]
    rw [Sink.kept, List.reverse_reverse]
    rfl
  · rw [Part.andThen, List.reverse_append, List.append_assoc]
    dsimp only [State.part]
    rw [List.reverse_reverse]
    rfl

/-- Whatever frames show in turn, the machine shows of them. -/
theorem InTurn.halts (h : InTurn p limits s.host.constants n frames part)
    (hs : s.host.sink.Unlimited) (before : Part) (hBefore : before.steps = n) :
    ∃ last, Halts p limits (between s before frames) last part.failure ∧
      Shown s (before.andThen part) last := by
  have hFits (t : State) (ahead : List Frame) (before : Part) :
      (between s before ahead).host.sink.Fits t.host.sink.taken.length := (hs.after _).fits _
  induction h generalizing before with
  | done n =>
    subst hBefore
    refine ⟨between s before [], .of_step step_between_nil, ?_, rfl, ?_⟩
    · rw [Part.andThen, List.append_nil]
      rfl
    · rw [Part.andThen, List.append_nil, List.append_nil]
      rfl
  | @call n name rest part _ ih =>
    subst hBefore
    obtain ⟨last, hHalts, hShown⟩ := ih (before.andThen { events := [.called name], steps := _ }) rfl
    rw [Part.andThen_assoc] at hShown
    exact ⟨last, hHalts.of_passes (.single step_between_call), hShown⟩
  | @block n a rest last part hHalts _ ih =>
    subst hBefore
    obtain ⟨k, v, hPasses, hStep⟩ := hHalts
    obtain ⟨rfl, hNone, -⟩ := halt_of_success hStep
    have hLone := (hPasses.reaches (.refl _)).lone
    have hOn := hPasses.atop (alone_unlimited _ _ a) (hFits last rest before)
    rw [between_atop hNone hLone] at hOn
    obtain ⟨final, hHalts, hShown⟩ := ih (before.andThen last.part) rfl
    rw [Part.andThen_assoc] at hShown
    exact ⟨final, hHalts.of_passes (.head step_between_block hOn), hShown⟩
  | @fail n a rest last f hHalts =>
    subst hBefore
    obtain ⟨k, v, hPasses, hStep⟩ := hHalts
    have hv := (hPasses.reaches (.refl _)).lone.unlimited
    have hOn := hPasses.atop (alone_unlimited _ _ a) (hFits v rest before)
    have hFail := step_atop_failure hv hStep (hFits last rest before)
    exact ⟨_, (Halts.of_step hFail).of_passes (.head step_between_block hOn),
      shown_atop s last before rest _⟩

namespace Amid

theorem step (h : Amid p limits s t) (hs : s.host.sink.Unlimited)
    (hStep : Machine.step p limits t = .next u) : Amid p limits s u := by
  cases h with
  | @between past ahead part hFrames hPast hNone =>
    match ahead, hFrames with
    | [], _ => cases hStep
    | .continuation name :: ahead, hFrames =>
      rw [step_between_call] at hStep
      cases hStep
      have hFrames' : s.host.pending = (past ++ [.continuation name]) ++ ahead := by
        rw [hFrames, List.append_assoc]
        rfl
      exact .between hFrames' (hPast.append hNone (.call (.done part.steps))) rfl
    | .block a :: ahead, hFrames =>
      rw [step_between_block] at hStep
      cases hStep
      exact .inside hFrames hPast hNone (.refl _) (Option.some_ne_none a)
  | @inside past ahead part a v hFrames hPast hNone hReaches hRunning =>
    have hFits (n : Nat) : (Machine.between s part ahead).host.sink.Fits n := (hs.after _).fits n
    rw [step_atop hReaches.lone.unlimited (.inl hRunning) (hFits _)] at hStep
    cases hAlone : Machine.step p limits v with
    | halt w failure =>
      rw [hAlone] at hStep
      cases hStep
    | next w =>
      rw [hAlone] at hStep
      cases hStep
      have hReaches' := hReaches.step hAlone
      by_cases hEnd : w.running = none
      · rw [between_atop hEnd hReaches'.lone]
        have hFrames' : s.host.pending = (past ++ [.block a]) ++ ahead := by
          rw [hFrames, List.append_assoc]
          rfl
        have hBlock : InTurn p limits s.host.constants part.steps [.block a]
            (w.part.andThen { steps := w.part.steps }) :=
          .block (hReaches'.halts_alone hEnd) (.done w.steps)
        rw [Part.andThen_done rfl] at hBlock
        exact .between hFrames' (hPast.append hNone hBlock) rfl
      · exact .inside hFrames hPast hNone hReaches' hEnd

theorem halt {last : State} {failure : Option Failure} (h : Amid p limits s t)
    (hs : s.host.sink.Unlimited) (hStep : Machine.step p limits t = .halt last failure) :
    ∃ part, InTurn p limits s.host.constants s.steps s.host.pending part ∧
      part.failure = failure ∧ Shown s part last := by
  cases h with
  | @between past ahead part hFrames hPast hNone =>
    match ahead, hFrames with
    | [], hFrames =>
      rw [step_between_nil] at hStep
      cases hStep
      rw [hFrames, List.append_nil]
      exact ⟨part, hPast, hNone, shown_between s part []⟩
    | .continuation name :: ahead, _ =>
      rw [step_between_call] at hStep
      cases hStep
    | .block a :: ahead, _ =>
      rw [step_between_block] at hStep
      cases hStep
  | @inside past ahead part a v hFrames hPast hNone hReaches hRunning =>
    have hFits (n : Nat) : (Machine.between s part ahead).host.sink.Fits n := (hs.after _).fits n
    rw [step_atop hReaches.lone.unlimited (.inl hRunning) (hFits _)] at hStep
    cases hAlone : Machine.step p limits v with
    | next w =>
      rw [hAlone] at hStep
      cases hStep
    | halt w failure =>
      rw [hAlone] at hStep
      cases hStep
      cases failure with
      | none => exact absurd (halt_of_success hAlone).2.1 hRunning
      | some f =>
        obtain ⟨n, hPasses⟩ := hReaches.exists_passes
        have hHalts : Halts p limits (alone s.host.constants part.steps a) w (some f) :=
          ⟨n, v, hPasses, hAlone⟩
        rw [hFrames]
        exact ⟨_, hPast.append hNone (.fail hHalts), rfl, shown_atop s w part ahead _⟩

theorem depth_le (h : Amid p limits s t) :
    t.host.depth + t.running.toList.length ≤ s.host.pending.length := by
  cases h with
  | between hFrames _ _ =>
    rw [hFrames, List.length_append]
    exact Nat.le_add_left _ _
  | @inside past ahead part a v hFrames _ _ hReaches _ =>
    have hDepth : (v.atop (Machine.between s part ahead)).host.depth = ahead.length := by
      rw [Host.depth, State.atop, hReaches.lone.pending]
      rfl
    have hOne : v.running.toList.length ≤ 1 := by cases v.running <;> simp
    rw [hDepth, hFrames, List.length_append, List.length_cons]
    exact Nat.le_trans (Nat.add_le_add_left hOne _) (Nat.le_add_left _ _)

theorem of_reaches (h : Reaches p limits s t) (hs : s.host.sink.Unlimited)
    (hNone : s.running = none) : Amid p limits s t := by
  induction h with
  | refl =>
    have hStart : Amid p limits s (Machine.between s { steps := s.steps } s.host.pending) :=
      .between (List.nil_append _).symm (.done s.steps) rfl
    rw [between_start s hNone] at hStart
    exact hStart
  | step _ hStep ih => exact ih.step hs hStep

end Amid

theorem shows_conclude {h : Host} {opening : Event} {failure : Option Failure}
    (hs : s.host.sink = h.sink) (hUnlimited : h.sink.Unlimited) (hTrail : s.trail = [opening])
    (hCalled : opening.continuation? = none)
    (hTurn : InTurn p limits constants n frames part) (hFailure : part.failure = failure)
    (hShown : Shown s part t) : (conclude t failure).Shows h opening frames part := by
  obtain ⟨hSink, hSteps, hEvents⟩ := hShown
  obtain ⟨past, ahead, hFrames, hNames, hDone, hFailed⟩ := hTurn.called
  have hFlush : t.host.sink.flush = none := by
    rw [hSink, hs]
    exact Sink.flush_of_unlimited (hUnlimited.after _)
  have hShow : t.trail.reverse = opening :: part.events := by
    rw [hEvents, hTrail, List.reverse_append, List.reverse_reverse]
    rfl
  have hLast (e : Event) : (e :: t.trail).reverse = opening :: part.events ++ [e] := by
    rw [List.reverse_cons, hShow]
  refine ⟨?_, ?_, ?_, ?_, past, ahead, hFrames, ?_, hDone, hFailed⟩
  · rw [hFailure]
    cases failure with
    | some f => rfl
    | none => exact conclude_of_flushed t hFlush
  · rw [conclude_sink, hSink, hs, Sink.kept_after, List.reverse_reverse]
  · rw [conclude_steps, hSteps]
  · rw [Part.closing, hFailure, ← hSteps]
    cases failure with
    | some f => exact hLast _
    | none =>
      rw [conclude, hFlush]
      exact hLast _
  · rw [conclude_called, State.called, hShow, List.filterMap_cons_none hCalled, hNames]

theorem Visits.reaches {h : Host} {entry : CodeBlock} (hVisits : Visits p limits h t)
    (hEntry : p.entryBlock? = some entry) :
    Reaches p limits (start p entry (h.push (.block entry.activation))) t := by
  obtain ⟨-, -, entry', hEntry', hReaches⟩ := hVisits
  cases hEntry.symm.trans hEntry'
  exact hReaches

/-- Pending frames are run in turn. With no room for the entry's frame nothing is run. With room,
the entry's frame and then the pending ones, from the top of the stack, show what each shows by
itself, and at any time the machine is where the current one would be by itself; the run ends in
the way that its frames in turn end. -/
theorem run_in_turn (p : Program) (limits : Limits) (h : Host) (hVerify : p.verify = .ok ())
    (hUnlimited : h.sink.Unlimited) :
    ∃ entry opening frames, p.entryBlock? = some entry ∧
      opening = .started entry.label p.blocks.length p.slotCount ∧
      frames = .block entry.activation :: h.pending ∧
      (limits.maxFrames ≤ h.depth → ∀ fuel, run fuel p limits h = some {
        result := .error { fault := .frameLimit limits.maxFrames }
        steps := 0
        events := [opening, .failed 0 (Fault.frameLimit limits.maxFrames).message]
        host := h.clear }) ∧
      (h.depth < limits.maxFrames →
        (∀ fuel report, run fuel p limits h = some report →
          ∃ part, InTurn p limits h.constants 0 frames part ∧
            report.Shows h opening frames part) ∧
        (∀ part, InTurn p limits h.constants 0 frames part →
          ∃ fuel report, run fuel p limits h = some report ∧
            report.Shows h opening frames part) ∧
        ∀ s, Visits p limits h s →
          Amid p limits (start p entry (h.push (.block entry.activation))) s ∧
            s.host.depth + s.running.toList.length ≤ h.depth + 1) := by
  obtain ⟨entry, hEntry⟩ := Program.exists_block? ((p.verify_eq_ok_iff).mp hVerify).entry_lt
  refine ⟨entry, _, _, hEntry, rfl, rfl, ?_, ?_⟩
  · intro hCrowded fuel
    rw [run_of_entry hVerify hEntry, runFrom_of_crowded hCrowded]
    rfl
  · intro hRoom
    have hStart : (start p entry (h.push (.block entry.activation))).host.sink.Unlimited :=
      hUnlimited
    refine ⟨?_, ?_, ?_⟩
    · intro fuel report hRun
      rw [run_of_entry hVerify hEntry, runFrom_of_room hRoom] at hRun
      obtain ⟨⟨last, failure⟩, hIterate, rfl⟩ := Option.map_eq_some_iff.mp hRun
      obtain ⟨n, t, hPasses, hHalt⟩ := Halts.of_iterate hIterate
      have hAmid := Amid.of_reaches (hPasses.reaches (.refl _)) hStart rfl
      obtain ⟨part, hTurn, hFailure, hShown⟩ := hAmid.halt hStart hHalt
      exact ⟨part, hTurn, shows_conclude rfl hUnlimited rfl rfl hTurn hFailure hShown⟩
    · intro part hTurn
      obtain ⟨last, hHalts, hShown⟩ :=
        InTurn.halts (s := start p entry (h.push (.block entry.activation))) hTurn hStart
          { steps := 0 } rfl
      have hBegin := between_start (start p entry (h.push (.block entry.activation))) rfl
      obtain ⟨fuel, hIterate⟩ := (hBegin ▸ hHalts).exists_iterate
      refine ⟨fuel, _, ?_, shows_conclude rfl hUnlimited rfl rfl hTurn rfl hShown⟩
      rw [run_of_entry hVerify hEntry, runFrom_of_room hRoom, hIterate]
      rfl
    · intro s hVisits
      have hAmid := Amid.of_reaches (hVisits.reaches hEntry) hStart rfl
      exact ⟨hAmid, hAmid.depth_le⟩

theorem run_in_turn_chime :
    chime.verify = .ok () ∧ chimeHost.sink.Unlimited ∧
    ∃ entry report part, chime.entryBlock? = some entry ∧
      run 9 chime {} chimeHost = some report ∧
      InTurn chime {} {} 0 (.block entry.activation :: chimeHost.pending) part ∧
      report.Shows chimeHost (.started entry.label 1 1) (.block entry.activation :: chimeHost.pending)
        part ∧
      part.output = [97, 98] ∧ report.called = ["between"] := by
  have hVerify : chime.verify = .ok () := rfl
  have hUnlimited : chimeHost.sink.Unlimited := ⟨rfl, rfl⟩
  have hShown : (run 9 chime {} chimeHost).map (fun r => (r.host.sink.kept, r.called)) =
      some ([97, 98], ["between"]) := by decide +kernel
  obtain ⟨report, hRun, hReport⟩ := Option.map_eq_some_iff.mp hShown
  obtain ⟨hKept, hCalled⟩ := Prod.mk.inj hReport
  obtain ⟨entry, _, _, hEntry, rfl, rfl, -, hTurns⟩ := run_in_turn chime {} chimeHost hVerify hUnlimited
  obtain ⟨part, hTurn, hShows⟩ := (hTurns (by decide)).1 9 report hRun
  exact ⟨hVerify, hUnlimited, entry, report, part, hEntry, hRun, hTurn, hShows,
    hShows.output.symm.trans hKept, hCalled⟩

end BlockMachine.Machine
