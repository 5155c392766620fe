import BlockMachine.Machine.Session
import BlockMachine.Proofs.Machine.Output
import BlockMachine.Proofs.Machine.Pending

/-!
# Runs by themselves
On a host where nothing is pending, a run is the run on a fresh host with the same constants, put
behind the output that is already there. A run leaves nothing pending and the constants as they
were, so the next one finds the same again.
-/

namespace BlockMachine.Machine
set_option autoImplicit false

variable {p : Program} {limits : Limits} {fuel : Nat} {s : State} {h : Host}

def Report.behind (sink : Sink) (r : Report) : Report :=
  { r with host := { r.host with sink := sink.after r.host.sink.taken } }

theorem iterate_atop_unlimited {below : State} (hs : s.host.sink.Unlimited)
    (hPending : below.host.pending = []) (hSink : below.host.sink.Unlimited) :
    iterate p limits fuel (s.atop below) =
      (iterate p limits fuel s).map fun r => (r.1.atop below, r.2) := by
  induction fuel generalizing s with
  | zero => rfl
  | succ fuel ih =>
    have hLater : s.host.Later (step p limits s).state.host := step_later hs
    rw [iterate, iterate]
    cases hStep : step p limits s with
    | next t =>
      rw [hStep] at hLater
      rw [step_atop_next hs hStep (hSink.fits _)]
      exact ih (hLater.unlimited hs)
    | halt t failure =>
      rw [step_atop_halt hs hPending hStep (hSink.fits _)]
      rfl

theorem conclude_atop {sink : Sink} (hs : s.host.sink.Unlimited) (hSink : sink.Unlimited)
    (failure : Option Failure) :
    conclude (s.atop (blank sink)) failure = (conclude s failure).behind sink := by
  have hTrail : (s.atop (blank sink)).trail = s.trail := List.append_nil s.trail
  have hFrames : (s.atop (blank sink)).host.pending = s.host.pending :=
    List.append_nil s.host.pending
  have hHost : (s.atop (blank sink)).host =
      { s.host with sink := sink.after s.host.sink.taken } := by
    rw [State.atop, blank, List.append_nil]
  cases failure with
  | some f =>
    rw [conclude, hTrail, hHost]
    rfl
  | none =>
    rw [conclude, conclude, Sink.flush_of_unlimited hs, hTrail, hHost,
      Sink.flush_of_unlimited (hSink.after _)]
    rfl

/-- A program is refused, whatever it is to be run on, or run from its entry. -/
theorem refused_or_run (p : Program) :
    (∃ text, ∀ fuel limits h, run fuel p limits h =
      some ⟨.error { fault := .internal text }, 0, [], h⟩) ∨
    ∃ entry, ∀ fuel limits h, run fuel p limits h = runFrom fuel p limits entry h := by
  cases hVerify : p.verify with
  | error d =>
    left
    refine ⟨d.message, fun fuel limits h => ?_⟩
    rw [run, hVerify]
  | ok u =>
    right
    obtain ⟨entry, hEntry⟩ := Program.exists_block? ((p.verify_eq_ok_iff).mp hVerify).entry_lt
    exact ⟨entry, fun fuel limits h => run_of_entry hVerify hEntry h fuel⟩

theorem runFrom_behind (entry : CodeBlock) (constants : Constants) {sink : Sink}
    (hSink : sink.Unlimited) :
    runFrom fuel p limits entry { constants, sink } =
      (runFrom fuel p limits entry { constants }).map (·.behind sink) := by
  have hBlank : ({} : Sink).Unlimited := ⟨rfl, rfl⟩
  have hDepth (sink : Sink) : Host.depth { constants, sink } = 0 := rfl
  rw [runFrom, runFrom, hDepth, hDepth]
  by_cases hFull : limits.maxFrames ≤ 0
  · have hStart : (start p entry { constants }).atop (blank sink) =
        start p entry { constants, sink } := start_atop p entry { constants } sink
    rw [if_pos hFull, if_pos hFull, ← hStart, conclude_atop hBlank hSink]
    rfl
  · have hStart : (start p entry (Host.push { constants } (.block entry.activation))).atop
        (blank sink) = start p entry (Host.push { constants, sink } (.block entry.activation)) :=
      start_atop p entry (Host.push { constants } (.block entry.activation)) sink
    have hFirst : (start p entry
        (Host.push { constants } (.block entry.activation))).host.sink.Unlimited := hBlank
    rw [if_neg hFull, if_neg hFull, ← hStart, iterate_atop_unlimited hFirst rfl hSink]
    cases hRun : iterate p limits fuel
        (start p entry (Host.push { constants } (.block entry.activation))) with
    | none => rfl
    | some r =>
      have hLast : r.1.host.sink.Unlimited := (iterate_later hFirst hRun).unlimited hFirst
      exact congrArg some (conclude_atop hLast hSink r.2)

/-- On an unlimited sink with nothing pending, a run differs from the run on a fresh host in
nothing but the output that was there before. -/
theorem run_behind {h : Host} (hPending : h.pending = []) (hSink : h.sink.Unlimited) :
    run fuel p limits h =
      (run fuel p limits { constants := h.constants }).map (·.behind h.sink) := by
  obtain ⟨pending, constants, sink⟩ := h
  cases hPending
  obtain ⟨text, hRefused⟩ | ⟨entry, hRun⟩ := refused_or_run p
  · rw [hRefused, hRefused, Option.map_some, Report.behind, Sink.after_nil]
  · rw [hRun, hRun]
    exact runFrom_behind entry constants hSink

theorem conclude_constants (s : State) (failure : Option Failure) :
    (conclude s failure).host.constants = s.host.constants := by
  cases failure with
  | some f => rfl
  | none =>
    rw [conclude]
    split <;> rfl

theorem run_leaves {h : Host} {r : Report} (hPending : h.pending = []) (hSink : h.sink.Unlimited)
    (hRun : run fuel p limits h = some r) :
    r.host.pending = [] ∧ r.host.constants = h.constants ∧ r.host.sink.Unlimited := by
  obtain ⟨text, hRefused⟩ | ⟨entry, hEntry⟩ := refused_or_run p
  · rw [hRefused] at hRun
    cases hRun
    exact ⟨hPending, rfl, hSink⟩
  · rw [hEntry] at hRun
    refine ⟨runFrom_pending hRun, ?_⟩
    rw [runFrom] at hRun
    split at hRun
    · cases hRun
      exact ⟨rfl, hSink⟩
    · obtain ⟨⟨last, failure⟩, hIterate, hConclude⟩ := Option.map_eq_some_iff.mp hRun
      have hStart : (start p entry (h.push (.block entry.activation))).host.sink.Unlimited := hSink
      have hLater := iterate_later hStart hIterate
      subst hConclude
      rw [conclude_constants, conclude_sink]
      exact ⟨hLater.constants, hLater.unlimited hStart⟩

namespace Session

variable {s t : Session} {c : Command} {reply : Reply}

/-- Nothing is pending, and there is room for any output. -/
structure Clean (s : Session) : Prop where
  pending : s.host.pending = []
  unlimited : s.host.sink.Unlimited

theorem perform_run (s : Session) (p : Program) :
    s.perform fuel (.run p) = (run fuel p s.limits s.host).map fun r =>
      (.ran ⟨r.result, r.host.sink.kept.drop s.host.sink.kept.length, r.warnings, r.called, r.events,
        r.steps, r.host.depth⟩, { s with steps := r.steps, host := r.host }) := by
  rw [perform]
  cases run fuel p s.limits s.host <;> rfl

/-- What is seen of a command does not depend on what was there before, but for the constants. -/
theorem perform_apart (fuel : Nat) (hs : s.Clean) (c : Command) :
    (s.perform fuel c).map Prod.fst =
      ((fresh s.limits s.host.constants).perform fuel c).map Prod.fst := by
  cases c with
  | define name value =>
    rw [perform, perform, Host.define, Host.define, fresh]
    cases s.host.constants.define name value <;> rfl
  | run p =>
    rw [perform_run, perform_run, run_behind hs.pending hs.unlimited, fresh]
    cases run fuel p s.limits { constants := s.host.constants } with
    | none => rfl
    | some r =>
      have hAdded : (r.behind s.host.sink).host.sink.kept.drop s.host.sink.kept.length =
          r.host.sink.kept := by
        rw [Report.behind, Sink.kept_after, List.drop_left]
        rfl
      simp only [Option.map_some, hAdded]
      rfl

theorem perform_leaves (hs : s.Clean) (h : s.perform fuel c = some (reply, t)) :
    t.Clean ∧ t.limits = s.limits ∧ t.host.constants = c.constants s.host.constants ∧
      t.host.sink.kept = s.host.sink.kept ++ reply.output := by
  cases c with
  | define name value =>
    rw [perform, Host.define] at h
    rw [Command.constants]
    cases hDefine : s.host.constants.define name value with
    | ok constants =>
      rw [hDefine] at h
      cases h
      exact ⟨⟨hs.pending, hs.unlimited⟩, rfl, rfl, (List.append_nil _).symm⟩
    | error e =>
      rw [hDefine] at h
      cases h
      exact ⟨hs, rfl, rfl, (List.append_nil _).symm⟩
  | run p =>
    rw [perform_run] at h
    obtain ⟨r, hRun, hReply⟩ := Option.map_eq_some_iff.mp h
    cases hReply
    obtain ⟨hPending, hConstants, hSink⟩ := run_leaves hs.pending hs.unlimited hRun
    rw [run_behind hs.pending hs.unlimited] at hRun
    obtain ⟨alone, -, hBehind⟩ := Option.map_eq_some_iff.mp hRun
    refine ⟨⟨hPending, hSink⟩, rfl, hConstants, ?_⟩
    subst hBehind
    rw [Reply.output, Report.behind, Sink.kept_after, List.drop_left]

theorem play_eq_some {cs : List Command} {replies : List Reply} :
    s.play fuel (c :: cs) = some (replies, t) ↔ ∃ reply next rest,
      s.perform fuel c = some (reply, next) ∧ next.play fuel cs = some (rest, t) ∧
        replies = reply :: rest := by
  rw [play]
  simp only [bind, pure, Option.bind_eq_some_iff, Prod.exists, Option.some.injEq, Prod.mk.injEq]
  constructor
  · rintro ⟨reply, next, hFirst, rest, last, hRest, rfl, rfl⟩
    exact ⟨reply, next, rest, hFirst, hRest, rfl⟩
  · rintro ⟨reply, next, rest, hFirst, hRest, rfl⟩
    exact ⟨reply, next, hFirst, rest, t, hRest, rfl, rfl⟩

theorem play_replies (hs : s.Clean) (commands : List Command) :
    (s.play fuel commands).map Prod.fst =
      Command.apart fuel s.limits s.host.constants commands := by
  induction commands generalizing s with
  | nil => rfl
  | cons c cs ih =>
    have hFirst := perform_apart fuel hs c
    rw [play, Command.apart]
    cases hStep : s.perform fuel c with
    | none =>
      rw [hStep] at hFirst
      rw [Option.map_eq_none_iff.mp hFirst.symm]
      rfl
    | some r =>
      obtain ⟨reply, t⟩ := r
      rw [hStep] at hFirst
      obtain ⟨⟨reply', t'⟩, hAlone, hReply⟩ := Option.map_eq_some_iff.mp hFirst.symm
      cases hReply
      obtain ⟨ht, hLimits, hConstants, -⟩ := perform_leaves hs hStep
      have hRest := ih ht
      rw [hLimits, hConstants] at hRest
      rw [hAlone]
      dsimp only [bind, Option.bind_some]
      rw [← hRest]
      cases t.play fuel cs <;> rfl

theorem play_leaves (hs : s.Clean) {commands : List Command} {replies : List Reply}
    (h : s.play fuel commands = some (replies, t)) :
    t.Clean ∧
      t.host.constants = commands.foldl (fun before c => c.constants before) s.host.constants ∧
      t.host.sink.kept = s.host.sink.kept ++ replies.flatMap Reply.output := by
  induction commands generalizing s replies with
  | nil =>
    cases h
    exact ⟨hs, rfl, (List.append_nil _).symm⟩
  | cons c cs ih =>
    obtain ⟨reply, next, rest, hFirst, hRest, rfl⟩ := play_eq_some.mp h
    obtain ⟨hNext, -, hConstants, hKept⟩ := perform_leaves hs hFirst
    obtain ⟨hLast, hConstants', hKept'⟩ := ih hNext hRest
    refine ⟨hLast, ?_, ?_⟩
    · rw [hConstants', hConstants, List.foldl_cons]
    · rw [hKept', hKept, List.flatMap_cons, List.append_assoc]

/-- Runs do not interfere. Whatever programs are run on one machine and one host, and whatever
constants are defined in between, each command is answered as by a fresh machine on a fresh host
that has the constants defined so far. In the end nothing is pending, and the output is that of the
commands in order. -/
theorem play_apart (fuel : Nat) (s : Session) (commands : List Command)
    (hPending : s.host.pending = []) (hSink : s.host.sink.Unlimited) :
    (s.play fuel commands).map Prod.fst =
      Command.apart fuel s.limits s.host.constants commands ∧
    ∀ replies t, s.play fuel commands = some (replies, t) →
      t.host.pending = [] ∧
      t.host.constants = commands.foldl (fun before c => c.constants before) s.host.constants ∧
      t.host.sink.kept = s.host.sink.kept ++ replies.flatMap Reply.output := by
  have hs : s.Clean := ⟨hPending, hSink⟩
  refine ⟨play_replies hs commands, fun replies t h => ?_⟩
  obtain ⟨hLast, hAll⟩ := play_leaves hs h
  exact ⟨hLast.pending, hAll⟩

/-- Echoes the constant `greeting`, and then adds it to itself. -/
def greet : Program where
  blocks := [{
    label := ⟨0⟩, origin := ⟨0⟩
    instrs := [.constFetch 1 0 none, .echo 1, .binary (.arithmetic .plus) 2 1 1]
    lines := [none, none, none]
    constants := [⟨⟨0⟩, 0, .ofString "greeting"⟩], scopeSize := 3 }]
  entry := ⟨0⟩
  slotCount := 3

/-- Runs that fail in the first, the third and no instruction, before and after the constant they
read is defined, and one that is refused. -/
def greetings : List Command :=
  [.run greet, .define "greeting" (.ofString "hi"), .run greet, .run hollow,
    .define "greeting" (.integer 4), .run pause, .run greet]

theorem play_apart_greetings :
    ∃ replies t, (fresh {} {}).play 9 greetings = some (replies, t) ∧
      Command.apart 9 {} {} greetings = some replies ∧ t.host.pending = [] ∧
      t.host.sink.kept = [104, 105, 104, 105] := by
  have hOutput : ((fresh {} {}).play 9 greetings).map (·.2.host.sink.kept) =
      some [104, 105, 104, 105] := by decide +kernel
  obtain ⟨⟨replies, t⟩, hPlay, hKept⟩ := Option.map_eq_some_iff.mp hOutput
  obtain ⟨hReplies, hLast⟩ := play_apart 9 (fresh {} {}) greetings rfl ⟨rfl, rfl⟩
  rw [hPlay] at hReplies
  exact ⟨replies, t, hPlay, hReplies.symm, (hLast replies t hPlay).1, hKept⟩

end Session

end BlockMachine.Machine
