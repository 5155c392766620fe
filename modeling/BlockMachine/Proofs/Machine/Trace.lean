import BlockMachine.Proofs.Code.Predecessors
import BlockMachine.Proofs.Machine.Blame

/-!
# The trace of a run is a path
Whatever a run of a verified program reports is a walk through its blocks. Every step reports what
it does, so at any time the trace leads to where the machine is. The blocks that control was
transferred from are among those that the listing shows above the block.
-/

namespace BlockMachine
set_option autoImplicit false

theorem Instr.texts_of_transfer {constants : Constants} {scope : Scope} {ws texts : List String}
    {i : Instr} {target : Label}
    (h : i.effect constants scope ws = .ok (.transfer target) texts) : texts = ws := by
  cases i with
  | jump target =>
    cases h
    rfl
  | branch cond ifTrue ifFalse =>
    obtain ⟨v, ws₁, hRead, hRest⟩ := Outcome.bind_eq_ok_iff.mp h
    cases hRest
    rw [Scope.read] at hRead
    cases hValue : scope[cond]? with
    | some w =>
      rw [hValue] at hRead
      cases hRead
      rfl
    | none =>
      rw [hValue] at hRead
      cases hRead
  | echo slot | assign result var expr | binary op result left right
  | constFetch result name qualified =>
    obtain ⟨v, ws₁, -, hRest⟩ := Outcome.bind_eq_ok_iff.mp h
    cases hRest

theorem Instr.Blamed.targets {h : Host} {scope : Scope} {i : Instr} {fault : Fault Slot}
    (hBlamed : i.Blamed h scope fault) : i.targets = [] := by
  cases hBlamed with
  | left hInstr | right hInstr | overflow hInstr | undefinedConstant hInstr | output hInstr =>
    rw [hInstr]
    rfl

/-- What an effect reports besides its instruction, if control leaves the given block by it. -/
def Effect.reports (source : Label) : Effect Slot Label → List Machine.Event
  | .store _ | .output _ => []
  | .transfer target => [.transferred source target]

theorem Frame.Fresh.belongs {p : Program} (hp : p.WellFormed) {f : Frame} (hFresh : f.Fresh p) :
    f.Belongs p := by
  cases f with
  | continuation name => exact trivial
  | block a =>
    obtain ⟨b, hb, scope, cameFrom, rfl⟩ := hFresh
    exact b.belongs_enter hp (hp.block?_label hb) scope cameFrom

namespace Machine

variable {p : Program} {limits : Limits} {h : Host} {s t : State} {a : Activation} {b : CodeBlock}
  {i : Instr} {entry : CodeBlock} {stack : List Frame} {events : List Event}

section Walking

variable {x y : Place} {m n : Nat} {source target : Label}

theorem Move.leads (hMove : Move p limits x events y) (hMem : .transferred source target ∈ events) :
    p.Leads source target := by
  cases hMove with
  | next texts _ _ _ =>
    rcases List.mem_cons.mp hMem with hReached | hWarned
    · cases hReached
    · obtain ⟨text, -, hText⟩ := List.mem_map.mp hWarned
      cases hText
  | @jump i target hHolds hTarget _ =>
    obtain ⟨b, hb, hi⟩ := hHolds
    rcases List.mem_pair.mp hMem with hReached | hTransferred
    · cases hReached
    · cases hTransferred
      exact ⟨b, hb, i, List.mem_of_getElem? hi, hTarget⟩

theorem Stop.not_transferred (hStop : Stop p limits x events) :
    .transferred source target ∉ events := by
  intro hMem
  cases hStop with
  | refused => cases List.mem_singleton.mp hMem
  | failed texts =>
    rcases List.mem_cons.mp hMem with hReached | hWarned
    · cases hReached
    · obtain ⟨text, -, hText⟩ := List.mem_map.mp hWarned
      cases hText

theorem Path.leads (hPath : Path p limits x events y) (hMem : .transferred source target ∈ events) :
    p.Leads source target := by
  induction hPath with
  | refl => cases hMem
  | tail _ hMove ih => exact (List.mem_append.mp hMem).elim ih hMove.leads

theorem Ran.leads (hRan : Ran p limits m stack events n)
    (hMem : .transferred source target ∈ events) : p.Leads source target := by
  induction hRan with
  | none => cases hMem
  | call name _ ih =>
    refine (List.mem_append.mp hMem).elim ih fun hCalled => ?_
    cases List.mem_singleton.mp hCalled
  | block _ hPath _ ih => exact (List.mem_append.mp hMem).elim ih hPath.leads

theorem Trace.leads (hTrace : Trace p limits stack events)
    (hMem : .transferred source target ∈ events) : p.Leads source target := by
  cases hTrace with
  | between _ hRan => exact hRan.leads hMem
  | inside _ hRan hPath => exact (List.mem_append.mp hMem).elim hRan.leads hPath.leads
  | stopped _ hRan hPath hStop =>
    rcases List.mem_append.mp hMem with hBefore | hLast
    · exact (List.mem_append.mp hBefore).elim hRan.leads hPath.leads
    · exact absurd hLast hStop.not_transferred

theorem Traced.leads (hTraced : Traced p limits entry h events)
    (hMem : .transferred source target ∈ events) : p.Leads source target := by
  obtain ⟨body, closing, rfl, hTrace, -, hClosing⟩ := hTraced
  rcases List.mem_append.mp hMem with hFront | hEnd
  · rcases List.mem_cons.mp hFront with hOpening | hBody
    · cases hOpening
    · exact hTrace.leads hBody
  · cases hClosing _ hEnd

end Walking

section Steps

def State.place (s : State) (a : Activation) : Place := ⟨a.code, a.pc, s.steps⟩

theorem State.At.holds (hAt : s.At p a b (some i)) : (s.place a).Holds p (some i) :=
  ⟨b, hAt.block, hAt.instr⟩

theorem perform_trail {effect : Effect Slot Label} (hPerform : perform p s b a effect = .next t) :
    t.trail = effect.reports a.code ++ s.trail := by
  cases effect with
  | store writes | output bytes | transfer target =>
    rw [perform] at hPerform
    split at hPerform
    · cases hPerform
      rfl
    · cases hPerform

theorem perform_halt_trail {effect : Effect Slot Label} {failure : Option Failure}
    (hPerform : perform p s b a effect = .halt t failure) : t.trail = s.trail := by
  cases effect with
  | store writes | output bytes | transfer target =>
    rw [perform] at hPerform
    split at hPerform
    · cases hPerform
    · cases hPerform
      rfl

theorem trail_count (s : State) (a : Activation) (i : Instr) (texts : List String) :
    ((s.count a i).warn texts).trail =
      ((s.place a).reached i :: texts.map .warned).reverse ++ s.trail := by
  rw [State.warn_trail, List.reverse_cons, List.append_assoc, List.map_reverse]
  rfl

theorem step_move (hp : p.WellFormed) (hAt : s.At p a b (some i))
    (hStep : step p limits s = .next t) :
    t.host.pending = s.host.pending ∧ ∃ a' new, t.running = some a' ∧
      Move p limits (s.place a) new (t.place a') ∧ t.trail = new.reverse ++ s.trail := by
  obtain ⟨hLimit, hSteps⟩ := step_at_next hAt hStep
  rw [step_at hAt] at hStep
  obtain ⟨-, effect, texts, hEffect, hPerform⟩ := execute_next hStep
  obtain ⟨hPending, hRunning⟩ := perform_running hPerform
  refine ⟨hPending, ?_⟩
  have hIsOf := Instr.effect_eq_ok hEffect
  have hTrail := perform_trail hPerform
  have hPlace (a' : Activation) : t.place a' = ⟨a'.code, a'.pc, s.steps + 1⟩ := by
    rw [State.place, hSteps]
  cases effect with
  | store writes =>
    obtain ⟨v, hValue, -⟩ := hIsOf
    obtain ⟨after, -, hRunning⟩ := hRunning
    refine ⟨_, _, hRunning, ?_, hTrail.trans (trail_count s a i texts)⟩
    rw [hPlace]
    exact .next texts hAt.holds (Instr.targets_of_value? hValue) hLimit
  | output bytes =>
    obtain ⟨slot, v, rfl, -⟩ := hIsOf
    refine ⟨_, _, hRunning, ?_, hTrail.trans (trail_count s a _ texts)⟩
    rw [hPlace]
    exact .next texts hAt.holds rfl hLimit
  | transfer target =>
    obtain ⟨next, hNext, hRunning⟩ := hRunning
    cases Instr.texts_of_transfer hEffect
    have hMove : Move p limits (s.place a) _ ((s.place a).jumpTo target) :=
      .jump hAt.holds hIsOf.1 hLimit
    refine ⟨_, [_, _], hRunning, ?_, hTrail⟩
    rw [hPlace, CodeBlock.enter, hp.label_eq hNext]
    exact hMove

/-- Where the machine halts at an instruction, and not internally, it reports that it stops
there. -/
theorem step_stop {f : Failure} (hAt : s.At p a b (some i))
    (hStep : step p limits s = .halt t (some f)) (hExternal : f.fault.isInternal = false) :
    ∃ last, Stop p limits (s.place a) last ∧ t.trail = last.reverse ++ s.trail := by
  rw [step_at hAt] at hStep
  cases hLimit : overLimit limits (s.steps + 1) with
  | some fault =>
    rw [execute_of_over hLimit] at hStep
    cases hStep
    exact ⟨_, .refused hAt.holds (hLimit ▸ Option.some_ne_none fault), rfl⟩
  | none =>
    cases hEffect : i.effect s.host.constants a.scope [] with
    | error fault texts =>
      rw [execute_of_error hLimit hEffect] at hStep
      cases hStep
      rcases Instr.effect_eq_error hEffect with hInternal | hBlamed
      · cases hInternal.symm.trans hExternal
      · exact ⟨_, .failed texts hAt.holds hBlamed.targets hLimit, trail_count s a i texts⟩
    | ok effect texts =>
      rw [execute_of_ok hLimit hEffect] at hStep
      obtain ⟨-, fault, hFailure, hFault⟩ := perform_halt hStep
      cases hFailure
      rcases hFault with hInternal | ⟨bytes, reason, rfl, -, rfl⟩
      · cases hInternal.symm.trans hExternal
      · obtain ⟨slot, v, rfl, -⟩ := Instr.effect_eq_ok hEffect
        exact ⟨_, .failed texts hAt.holds rfl hLimit,
          (perform_halt_trail hStep).trans (trail_count s a _ texts)⟩

end Steps

/-- The machine has come to the state on a trace of its stack: it is between two frames, or where
the current one has led. -/
inductive Tracks (p : Program) (limits : Limits) (stack : List Frame) (s : State) :
    List Event → Prop where
  | between {past : List Frame} {events : List Event} : s.running = none →
      stack = past ++ s.host.pending → Ran p limits 0 past events s.steps →
      Tracks p limits stack s events
  | inside {past : List Frame} {first a : Activation} {events more : List Event} {n : Nat} :
      s.running = some a → stack = past ++ .block first :: s.host.pending →
      Ran p limits 0 past events n → Path p limits ⟨first.code, 0, n⟩ more (s.place a) →
      Tracks p limits stack s (events ++ more)

namespace Tracks

theorem trace (hTracks : Tracks p limits stack s events) : Trace p limits stack events := by
  cases hTracks with
  | between _ hStack hRan => exact .between hStack hRan
  | inside _ hStack hRan hPath => exact .inside hStack hRan hPath

theorem step (hp : p.WellFormed) (hFresh : ∀ f ∈ stack, f.Fresh p)
    (hTracks : Tracks p limits stack s events) (hStep : Machine.step p limits s = .next t) :
    ∃ new, Tracks p limits stack t (events ++ new) ∧ t.trail = new.reverse ++ s.trail := by
  obtain ⟨a, b, i, hAt⟩ | hIdle := at_or_idle p s
  · obtain ⟨hPending, a', new, hRunning, hMove, hTrail⟩ := step_move hp hAt hStep
    refine ⟨new, ?_, hTrail⟩
    cases hTracks with
    | between hNone => cases hNone.symm.trans hAt.running
    | inside hHere hStack hRan hPath =>
      cases hHere.symm.trans hAt.running
      rw [List.append_assoc]
      exact .inside hRunning (hPending ▸ hStack) hRan (hPath.tail hMove)
  · obtain ⟨name, rest, hNone, hPending, rfl⟩ | ⟨first, rest, hNone, hPending, rfl⟩ | ⟨a, b, hAt, rfl⟩ :=
      next_of_idle hIdle hStep
    · cases hTracks with
      | @between past events _ hStack hRan =>
        refine ⟨[.called name], .between hNone ?_ (.call name hRan), rfl⟩
        rw [hStack, hPending, List.append_assoc]
        rfl
      | inside hHere => cases hNone.symm.trans hHere
    · cases hTracks with
      | @between past events _ hStack hRan =>
        have hMem : .block first ∈ stack :=
          hStack ▸ List.mem_append_right _ (hPending ▸ List.mem_cons_self)
        obtain ⟨b, -, scope, cameFrom, rfl⟩ := hFresh _ hMem
        have hInside : Tracks p limits stack
            { s with running := some (b.enter scope cameFrom), host.pending := rest } (events ++ []) :=
          .inside rfl (hPending ▸ hStack) hRan .refl
        exact ⟨[], hInside, rfl⟩
      | inside hHere => cases hNone.symm.trans hHere
    · cases hTracks with
      | between hNone => cases hNone.symm.trans hAt.running
      | @inside past first _ events more n hHere hStack hRan hPath =>
        cases hHere.symm.trans hAt.running
        have hEnd : (s.place a).Holds p none := ⟨b, hAt.block, hAt.instr⟩
        refine ⟨[], ?_, rfl⟩
        rw [List.append_nil]
        refine .between rfl ?_ (hRan.block hPath hEnd)
        rw [hStack, List.append_assoc]
        rfl

theorem halt {failure : Option Failure} (hTracks : Tracks p limits stack s events)
    (hStep : Machine.step p limits s = .halt t failure)
    (hExternal : ∀ f, failure = some f → f.fault.isInternal = false) :
    ∃ new, Trace p limits stack (events ++ new) ∧ t.trail = new.reverse ++ s.trail ∧
      (failure = none → Ran p limits 0 stack (events ++ new) t.steps) := by
  cases failure with
  | none =>
    obtain ⟨rfl, hNone, hPending⟩ := halt_of_success hStep
    refine ⟨[], ?_, rfl, fun _ => ?_⟩
    · rw [List.append_nil]
      exact hTracks.trace
    · cases hTracks with
      | between _ hStack hRan =>
        rw [hStack, hPending, List.append_nil, List.append_nil]
        exact hRan
      | inside hHere => cases hNone.symm.trans hHere
  | some f =>
    obtain ⟨a, b, i, hAt⟩ | hIdle := at_or_idle p s
    · obtain ⟨last, hStop, hTrail⟩ := step_stop hAt hStep (hExternal f rfl)
      refine ⟨last, ?_, hTrail, fun hNone => by cases hNone⟩
      cases hTracks with
      | between hNone => cases hNone.symm.trans hAt.running
      | inside hHere hStack hRan hPath =>
        cases hHere.symm.trans hAt.running
        exact .stopped hStack hRan hPath hStop
    · have hInternal := (halt_of_idle hIdle hStep).2 f rfl
      cases hInternal.symm.trans (hExternal f rfl)

end Tracks

section Runs

theorem fresh_frames (hEntry : p.entryBlock? = some entry)
    (hPending : ∀ f ∈ h.pending, f.Fresh p) : ∀ f ∈ frames entry h, f.Fresh p :=
  List.forall_mem_cons.mpr ⟨⟨entry, List.mem_of_getElem? hEntry, #[], none, rfl⟩, hPending⟩

theorem Visits.tracks (hVisits : Visits p limits h s) (hEntry : p.entryBlock? = some entry)
    (hPending : ∀ f ∈ h.pending, f.Fresh p) :
    ∃ body, Tracks p limits (frames entry h) s body ∧ s.trail.reverse = opening p entry :: body := by
  have hp := hVisits.wellFormed
  have hFresh := fresh_frames hEntry hPending
  obtain ⟨-, -, entry', hEntry', hReaches⟩ := hVisits
  cases hEntry.symm.trans hEntry'
  induction hReaches with
  | refl => exact ⟨[], .between rfl rfl .none, rfl⟩
  | step _ hStep ih =>
    obtain ⟨body, hTracks, hTrail⟩ := ih
    obtain ⟨new, hTracks', hTrail'⟩ := hTracks.step hp hFresh hStep
    refine ⟨body ++ new, hTracks', ?_⟩
    rw [hTrail', List.reverse_append, List.reverse_reverse, hTrail]
    rfl

theorem Visits.belongs (hVisits : Visits p limits h s) (hPending : ∀ f ∈ h.pending, f.Belongs p) :
    s.Belongs p := by
  have hp := hVisits.wellFormed
  obtain ⟨-, -, entry, hEntry, hReaches⟩ := hVisits
  exact hReaches.belongs hp (start_belongs hp hEntry hPending)

theorem conclude_events (s : State) (failure : Option Failure) :
    ∃ closing, (conclude s failure).events = s.trail.reverse ++ closing ∧ closing.length ≤ 1 ∧
      (∀ e ∈ closing, e.isClosing = true) ∧
      ((conclude s failure).result = .ok () → failure = none ∧ closing = [.finished s.steps]) := by
  cases failure with
  | some f =>
    refine ⟨[.failed s.steps f.fault.message], List.reverse_cons, Nat.le_refl 1, ?_, ?_⟩
    · exact List.forall_mem_singleton.mpr rfl
    · rintro ⟨⟩
  | none =>
    cases hFlush : s.host.sink.flush with
    | some reason =>
      rw [conclude, hFlush]
      refine ⟨[], (List.append_nil _).symm, Nat.zero_le 1, List.forall_mem_nil _, ?_⟩
      rintro ⟨⟩
    | none =>
      rw [conclude, hFlush]
      exact ⟨[.finished s.steps], List.reverse_cons, Nat.le_refl 1,
        List.forall_mem_singleton.mpr rfl, fun _ => ⟨rfl, rfl⟩⟩

/-- A run that ended has reported a trace of its frames. If it ended without a failure, they have
all run. -/
theorem run_traced {fuel : Nat} {report : Report} (hVerify : p.verify = .ok ())
    (hEntry : p.entryBlock? = some entry) (hPending : ∀ f ∈ h.pending, f.Fresh p)
    (hRun : run fuel p limits h = some report) :
    ∃ body closing, report.events = opening p entry :: body ++ closing ∧
      Trace p limits (frames entry h) body ∧ closing.length ≤ 1 ∧
      (∀ e ∈ closing, e.isClosing = true) ∧ (report.result = .ok () →
        closing = [.finished report.steps] ∧ Ran p limits 0 (frames entry h) body report.steps) := by
  have hp := (p.verify_eq_ok_iff).mp hVerify
  rcases crowded_or_visits hVerify hEntry hRun with
    ⟨-, rfl⟩ | ⟨s, t, failure, hVisits, hStep, rfl⟩
  · obtain ⟨closing, hEvents, hLength, hClosing, -⟩ :=
      conclude_events (start p entry h) (some { fault := .frameLimit limits.maxFrames })
    refine ⟨[], closing, hEvents, .between rfl .none, hLength, hClosing, ?_⟩
    rintro ⟨⟩
  · obtain ⟨body, hTracks, hTrail⟩ := hVisits.tracks hEntry hPending
    have hBelongs := hVisits.belongs fun f hf => (hPending f hf).belongs hp
    have hExternal : ∀ f, failure = some f → f.fault.isInternal = false := by
      have hOrderly : (Machine.step p limits s).Orderly p := step_orderly hp hBelongs
      rw [hStep] at hOrderly
      exact hOrderly
    obtain ⟨new, hTrace, hTrail', hRan⟩ := hTracks.halt hStep hExternal
    obtain ⟨closing, hEvents, hLength, hClosing, hEnd⟩ := conclude_events t failure
    refine ⟨body ++ new, closing, ?_, hTrace, hLength, hClosing, fun hResult => ?_⟩
    · rw [hEvents, hTrail', List.reverse_append, List.reverse_reverse, hTrail]
      rfl
    · obtain ⟨hNone, hFinished⟩ := hEnd hResult
      rw [conclude_steps]
      exact ⟨hFinished, hRan hNone⟩

/-- The trace of a run of a verified program is a path of the listed graph, when the frames on the
host are as its blocks make them. Whatever is reported of the run is how it began, then a trace of
its frames, and then at most how it ended; and if it ended without a failure all frames have run.
Above each block the listing shows those that lead to it, and whatever block control is transferred
from is one of them. -/
theorem run_trace (p : Program) (limits : Limits) (h : Host) (hVerify : p.verify = .ok ())
    (hPending : ∀ f ∈ h.pending, f.Fresh p) :
    ∃ entry, p.entryBlock? = some entry ∧
      (∀ events, Reported p limits h events → Traced p limits entry h events) ∧
      (∀ fuel report, run fuel p limits h = some report → report.result = .ok () →
        ∃ body, report.events = opening p entry :: body ++ [.finished report.steps] ∧
          Ran p limits 0 (frames entry h) body report.steps) ∧
      ∀ b ∈ p.blocks, ∃ sources, p.ShowsSources b sources ∧
        ∀ events l, Reported p limits h events → .transferred l b.label ∈ events → l ∈ sources := by
  have hp := (p.verify_eq_ok_iff).mp hVerify
  obtain ⟨entry, hEntry⟩ := Program.exists_block? hp.entry_lt
  have hTraced : ∀ events, Reported p limits h events → Traced p limits entry h events := by
    rintro _ (hRun | hVisits)
    · obtain ⟨body, closing, hEvents, hTrace, hLength, hClosing, -⟩ :=
        run_traced hVerify hEntry hPending hRun
      exact ⟨body, closing, hEvents, hTrace, hLength, hClosing⟩
    · obtain ⟨body, hTracks, hTrail⟩ := hVisits.tracks hEntry hPending
      exact ⟨body, [], by rw [hTrail, List.append_nil], hTracks.trace, Nat.zero_le 1,
        List.forall_mem_nil _⟩
  refine ⟨entry, hEntry, hTraced, ?_, ?_⟩
  · intro fuel report hRun hResult
    obtain ⟨body, closing, hEvents, -, -, -, hEnd⟩ := run_traced hVerify hEntry hPending hRun
    obtain ⟨rfl, hRan⟩ := hEnd hResult
    exact ⟨body, hEvents, hRan⟩
  · intro b hb
    refine ⟨_, Program.showsSources_predecessors hp b, fun events l hReported hMem => ?_⟩
    exact (Program.mem_predecessors_iff hp).mpr ((hTraced events hReported).leads hMem)

/-- A loop of two blocks, and a block without instructions behind it. -/
def shuttle : Program where
  blocks := [
    { label := ⟨0⟩, origin := ⟨0⟩, instrs := [.jump ⟨1⟩], lines := [none] },
    { label := ⟨1⟩, origin := ⟨1⟩, instrs := [.binary .concat 1 0 0, .branch 0 ⟨2⟩ ⟨0⟩],
      lines := [none, none], constants := [⟨⟨0⟩, 0, .boolean true⟩], scopeSize := 2 },
    { label := ⟨2⟩, origin := ⟨2⟩ }]
  entry := ⟨0⟩
  slotCount := 2

def shuttleBlock : CodeBlock where
  label := ⟨1⟩
  origin := ⟨1⟩
  instrs := [.binary .concat 1 0 0, .branch 0 ⟨2⟩ ⟨0⟩]
  lines := [none, none]
  constants := [⟨⟨0⟩, 0, .boolean true⟩]
  scopeSize := 2

def shuttleHost : Host where
  pending := [.continuation "later", .block shuttleBlock.activation]

/-- All that is reported if four instructions are the limit. -/
def shuttleEvents : List Event := [
  .started ⟨0⟩ 3 2, .reached ⟨0⟩ 0 "JUMP", .transferred ⟨0⟩ ⟨1⟩, .reached ⟨1⟩ 0 "CONCAT",
  .reached ⟨1⟩ 1 "JUMP_IF", .transferred ⟨1⟩ ⟨2⟩, .called "later", .reached ⟨1⟩ 0 "CONCAT",
  .reached ⟨1⟩ 1 "JUMP_IF", .failed 5 "execution step limit exceeded (4)"]

theorem run_trace_shuttle :
    shuttle.verify = .ok () ∧ (∀ f ∈ shuttleHost.pending, f.Fresh shuttle) ∧
    ∃ entry, shuttle.entryBlock? = some entry ∧
      Traced shuttle { maxSteps := some 4 } entry shuttleHost shuttleEvents ∧
      ∃ sources, shuttle.ShowsSources shuttleBlock sources ∧ ⟨0⟩ ∈ sources := by
  have hVerify : shuttle.verify = .ok () := rfl
  have hPending : ∀ f ∈ shuttleHost.pending, f.Fresh shuttle :=
    List.forall_mem_cons.mpr ⟨trivial, List.forall_mem_singleton.mpr
      ⟨shuttleBlock, .tail _ (.head _), #[], none, rfl⟩⟩
  have hEvents : (run 20 shuttle { maxSteps := some 4 } shuttleHost).map Report.events =
      some shuttleEvents := by decide +kernel
  obtain ⟨report, hRun, hReport⟩ := Option.map_eq_some_iff.mp hEvents
  have hReported : Reported shuttle { maxSteps := some 4 } shuttleHost shuttleEvents :=
    hReport ▸ .ended hRun
  obtain ⟨entry, hEntry, hTraced, -, hShown⟩ :=
    run_trace shuttle { maxSteps := some 4 } shuttleHost hVerify hPending
  obtain ⟨sources, hShows, hSources⟩ := hShown shuttleBlock (.tail _ (.head _))
  exact ⟨hVerify, hPending, entry, hEntry, hTraced _ hReported, sources, hShows,
    hSources _ ⟨0⟩ hReported (by decide)⟩

end Runs

end Machine

end BlockMachine
