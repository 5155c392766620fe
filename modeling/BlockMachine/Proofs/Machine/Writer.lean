import BlockMachine.Machine.Writer
import BlockMachine.Proofs.Machine.Safety
import BlockMachine.Proofs.Machine.Transition

/-!
# Runs and writers
A run offers its output instruction by instruction, and asks no more of where it goes than how many
of these sequences are taken whole, why the next one is refused, and whether what was taken can be
flushed. To all of this a sink can answer as any writer does.
-/

namespace BlockMachine
set_option autoImplicit false

section Offer

variable {σ : Type} {writeAll : σ → List UInt8 → Option String × σ} {s t : σ} {bytes : List UInt8}

theorem offer_of_written (rest : List (List UInt8)) (h : writeAll s bytes = (none, t)) :
    offer writeAll s (bytes :: rest) = (offer writeAll t rest).succ := by
  rw [offer, h]

theorem offer_of_refused {reason : String} (rest : List (List UInt8))
    (h : writeAll s bytes = (some reason, t)) :
    offer writeAll s (bytes :: rest) = ⟨0, some reason, t⟩ := by
  rw [offer, h]

end Offer

namespace Writer

variable {σ : Type} (w : Writer σ)

/-- Bytes that are all written are all taken, and of others a part from the front. -/
theorem writeAll_taken (s : List UInt8 × σ) (bytes : List UInt8) :
    ((w.writeAll s bytes).1 = none ∧ (w.writeAll s bytes).2.1 = s.1 ++ bytes) ∨
      ∃ reason n, (w.writeAll s bytes).1 = some reason ∧ n < bytes.length ∧
        (w.writeAll s bytes).2.1 = s.1 ++ bytes.take n := by
  induction s, bytes using Writer.writeAll.induct w with
  | case1 s =>
    refine .inl ?_
    rw [writeAll, dif_pos rfl, List.append_nil]
    exact ⟨rfl, rfl⟩
  | case2 s bytes hSome reason t hWrite =>
    refine .inr ⟨reason, 0, ?_⟩
    rw [writeAll, dif_neg hSome, hWrite, List.take_zero, List.append_nil]
    exact ⟨rfl, List.length_pos_iff.mpr hSome, rfl⟩
  | case3 s bytes hSome hZero t hWrite =>
    refine .inr ⟨"failed to write whole buffer", 0, ?_⟩
    rw [writeAll, dif_neg hSome, hWrite, List.take_zero, List.append_nil]
    exact ⟨rfl, List.length_pos_iff.mpr hSome, rfl⟩
  | case4 s bytes hSome n hFits t hWrite ih =>
    have hNext : w.writeAll s bytes =
        w.writeAll (s.1 ++ bytes.take (n + 1), t) (bytes.drop (n + 1)) := by
      rw [writeAll, dif_neg hSome, hWrite]
    rw [hNext]
    obtain ⟨hNone, hTaken⟩ | ⟨reason, m, hReason, hPart, hTaken⟩ := ih
    · refine .inl ⟨hNone, ?_⟩
      rw [hTaken, List.append_assoc, List.take_append_drop]
    · refine .inr ⟨reason, n + 1 + m, hReason, ?_, ?_⟩
      · rw [List.length_drop] at hPart
        omega
      · rw [hTaken, List.append_assoc, ← List.take_add]

/-- A sink with room for what a writer takes does what the writer does. -/
theorem exists_room (s : List UInt8 × σ) (sequences : List (List UInt8)) :
    ∃ more, (offer w.writeAll s sequences).left.1 = s.1 ++ more ∧
      ∀ k : Sink, ((offer w.writeAll s sequences).refusal = none → k.Fits more.length) →
        (∀ reason, (offer w.writeAll s sequences).refusal = some reason →
          k.room = some more.length ∧ k.whenFull.reason = reason) →
        k.offered sequences = ⟨(offer w.writeAll s sequences).whole,
          (offer w.writeAll s sequences).refusal, k.after more.reverse⟩ := by
  induction sequences generalizing s with
  | nil =>
    refine ⟨[], (List.append_nil _).symm, fun k _ _ => ?_⟩
    rw [List.reverse_nil, k.after_nil]
    rfl
  | cons bytes rest ih =>
    obtain ⟨hNone, hTaken⟩ | ⟨reason, n, hReason, hPart, hTaken⟩ := w.writeAll_taken s bytes
    · obtain ⟨more, hLeft, hSink⟩ := ih (w.writeAll s bytes).2
      rw [offer_of_written rest (Prod.ext hNone rfl)]
      refine ⟨bytes ++ more, ?_, fun k hFits hFull => ?_⟩
      · rw [← List.append_assoc, ← hTaken]
        exact hLeft
      · have hAll : k.Fits (more.length + bytes.reverse.length) := by
          rw [List.length_reverse, Nat.add_comm, ← List.length_append]
          cases hRefusal : (offer w.writeAll (w.writeAll s bytes).2 rest).refusal with
          | none => exact hFits hRefusal
          | some reason =>
            intro r hr
            exact Nat.le_of_eq (Option.some.inj ((hFull reason hRefusal).1.symm.trans hr))
        have hWrite : k.writeAll bytes = (none, k.after bytes.reverse) := by
          refine Sink.writeAll_of_fits fun r hr => ?_
          have hLe := hAll r hr
          rw [List.length_reverse] at hLe
          omega
        rw [Sink.offered, offer_of_written rest hWrite, List.reverse_append, ← Sink.after_after]
        have hRest := hSink (k.after bytes.reverse) (fun _ => Sink.fits_of_after hAll)
          fun reason hReason => ?_
        · exact congrArg Offered.succ hRest
        · obtain ⟨hRoom, hWhy⟩ := hFull reason hReason
          refine ⟨?_, hWhy⟩
          rw [Sink.after, hRoom, Option.map_some, List.length_append, List.length_reverse,
            Nat.add_sub_cancel_left]
    · rw [offer_of_refused rest (Prod.ext hReason rfl)]
      refine ⟨bytes.take n, hTaken, fun k _ hFull => ?_⟩
      obtain ⟨hRoom, hWhy⟩ := hFull reason rfl
      rw [List.length_take, Nat.min_eq_left (Nat.le_of_lt hPart)] at hRoom
      have hWrite := Sink.writeAll_of_over hRoom hPart
      rw [Sink.offered, offer_of_refused rest hWrite, hWhy]

/-- Whatever a writer does with a number of sequences, there is a sink that does the same. -/
theorem exists_sink (s : σ) (sequences : List (List UInt8)) :
    ∃ k : Sink, k.taken = [] ∧ k.answers sequences = w.answers s sequences ∧
      (k.offered sequences).left.kept = (w.offered s sequences).left.1 := by
  obtain ⟨more, hLeft, hSink⟩ := w.exists_room ([], s) sequences
  let o := w.offered s sequences
  let k : Sink := {
    room := o.refusal.map fun _ => more.length
    whenFull := .fail (o.refusal.getD "")
    flushFails := (w.flush o.left.2).isSome
    flushReason := (w.flush o.left.2).getD "" }
  have hOffered : k.offered sequences = ⟨o.whole, o.refusal, k.after more.reverse⟩ := by
    refine hSink k (fun hNone r hr => ?_) fun reason hReason => ?_
    · have hRoom : k.room = none := congrArg (Option.map _) hNone
      cases hRoom.symm.trans hr
    · exact ⟨congrArg (Option.map _) hReason, congrArg (Option.getD · "") hReason⟩
  have hFlush : k.flush = w.flush o.left.2 := by
    change (if (w.flush o.left.2).isSome then some ((w.flush o.left.2).getD "") else none) = _
    cases w.flush o.left.2 <;> rfl
  refine ⟨k, rfl, ?_, ?_⟩
  · rw [Sink.answers, hOffered]
    exact congrArg (Answers.mk o.whole o.refusal) hFlush
  · rw [hOffered, Sink.kept_after, List.reverse_reverse]
    exact hLeft.symm

end Writer

namespace Sink

variable {k k' : Sink} {bytes : List UInt8}

theorem answers_of_written (rest : List (List UInt8)) (h : k.writeAll bytes = (none, k')) :
    k.answers (bytes :: rest) =
      ⟨(k'.answers rest).whole + 1, (k'.answers rest).refusal, (k'.answers rest).flush⟩ := by
  rw [answers, offered, offer_of_written rest h]
  rfl

theorem answers_of_refused {reason : String} (rest : List (List UInt8))
    (h : k.writeAll bytes = (some reason, k')) :
    k.answers (bytes :: rest) = ⟨0, some reason, k'.flush⟩ := by
  rw [answers, offered, offer_of_refused rest h]
  rfl

/-- Sinks with the same answers have both written the first sequence, or have both refused it for
the same reason. -/
theorem alike_of_answers (rest : List (List UInt8))
    (h : k'.answers (bytes :: rest) = k.answers (bytes :: rest)) :
    (∃ j j', k.writeAll bytes = (none, j) ∧ k'.writeAll bytes = (none, j') ∧
        j'.answers rest = j.answers rest) ∨
      ∃ reason j j',
        k.writeAll bytes = (some reason, j) ∧ k'.writeAll bytes = (some reason, j') := by
  rcases hFirst : k.writeAll bytes with ⟨refusal, j⟩
  rcases hSecond : k'.writeAll bytes with ⟨refusal', j'⟩
  cases refusal with
  | none =>
    rw [answers_of_written rest hFirst] at h
    cases refusal' with
    | none =>
      rw [answers_of_written rest hSecond, Answers.mk.injEq] at h
      obtain ⟨hWhole, hRefusal, hFlush⟩ := h
      refine .inl ⟨j, j', rfl, rfl, ?_⟩
      exact Answers.mk.injEq .. ▸ ⟨Nat.succ.inj hWhole, hRefusal, hFlush⟩
    | some reason' =>
      rw [answers_of_refused rest hSecond] at h
      cases congrArg Answers.whole h
  | some reason =>
    rw [answers_of_refused rest hFirst] at h
    cases refusal' with
    | none =>
      rw [answers_of_written rest hSecond] at h
      cases congrArg Answers.whole h
    | some reason' =>
      rw [answers_of_refused rest hSecond] at h
      cases congrArg Answers.refusal h
      exact .inr ⟨reason, j, j', rfl, rfl⟩

end Sink

namespace Machine

theorem perform_asks (p : Program) (s : State) (b : CodeBlock) (a : Activation)
    (effect : Effect Slot Label) : Asks fun k => perform p (s.onto k) b a effect := by
  cases effect with
  | store writes =>
    refine .nothing (perform p s b a (.store writes)) fun k => ?_
    rw [perform, perform]
    cases a.scope.writeAll writes <;> rfl
  | output bytes =>
    refine .sequence bytes { s with running := some { a with pc := a.pc + 1 } } s
      (fun reason => s.failure b a (.output reason)) (fun k k' hWrite => ?_)
      fun k k' reason hWrite => ?_
    · rw [perform_of_written (s := s.onto k) hWrite]
      rfl
    · rw [perform_of_refused (s := s.onto k) hWrite]
      rfl
  | transfer target =>
    refine .nothing (perform p s b a (.transfer target)) fun k => ?_
    rw [perform, perform]
    cases p.block? target <;> rfl

variable (p : Program) (limits : Limits)

theorem execute_asks (s : State) (b : CodeBlock) (a : Activation) (i : Instr) :
    Asks fun k => execute p limits (s.onto k) b a i := by
  cases hLimit : overLimit limits (s.steps + 1) with
  | some fault =>
    refine .nothing (.halt (s.count a i) (some ((s.count a i).failure b a fault))) fun k => ?_
    rw [execute_of_over (s := s.onto k) hLimit]
    rfl
  | none =>
    cases hEffect : i.effect s.host.constants a.scope [] with
    | error fault texts =>
      refine .nothing (.halt ((s.count a i).warn texts)
        (some (((s.count a i).warn texts).failure b a fault))) fun k => ?_
      rw [execute_of_error (s := s.onto k) hLimit hEffect]
      rfl
    | ok effect texts =>
      have hOnto : (fun k => execute p limits (s.onto k) b a i) =
          fun k => perform p (((s.count a i).warn texts).onto k) b a effect := by
        funext k
        rw [execute_of_ok (s := s.onto k) hLimit hEffect]
        rfl
      rw [hOnto]
      exact perform_asks p _ b a effect

/-- A transition asks nothing of the sink, or offers it one sequence of bytes. -/
theorem step_asks (s : State) : Asks fun k => step p limits (s.onto k) := by
  obtain hNone | ⟨a, hRunning, hBlock⟩ | ⟨a, b, hAt⟩ | ⟨a, b, i, hAt⟩ := stands p s
  · refine .nothing (resume s) fun k => ?_
    have hPending : (s.onto k).host.pending = s.host.pending := rfl
    rw [step_of_none (s := s.onto k) hNone, resume, resume, hPending]
    cases s.host.pending with
    | nil => rfl
    | cons f rest => cases f <;> rfl
  · refine .nothing (step p limits s) fun k => ?_
    rw [step_of_missing hRunning hBlock, step_of_missing (s := s.onto k) hRunning hBlock]
    rfl
  · refine .nothing (step p limits s) fun k => ?_
    rw [step_at_end hAt, step_at_end (s := s.onto k) ⟨hAt.running, hAt.block, hAt.instr⟩]
    rfl
  · have hOnto : (fun k => step p limits (s.onto k)) =
        fun k => execute p limits (s.onto k) b a i := by
      funext k
      exact step_at (s := s.onto k) ⟨hAt.running, hAt.block, hAt.instr⟩
    rw [hOnto]
    exact execute_asks p limits s b a i

/-- Until it halts, the machine offers sequences that are the same for all sinks, and what the sink
answers to them decides the rest. -/
theorem iterate_sees (fuel : Nat) (s : State) :
    ∃ sequences, ∀ k k' : Sink, k'.answers sequences = k.answers sequences →
      ∀ t failure, iterate p limits fuel (s.onto k) = some (t, failure) →
        t.host.sink = (k.offered sequences).left ∧
          iterate p limits fuel (s.onto k') =
            some (t.onto (k'.offered sequences).left, failure) := by
  induction fuel generalizing s with
  | zero => exact ⟨[], fun k k' _ t failure hRun => by cases hRun⟩
  | succ fuel ih =>
    cases step_asks p limits s with
    | nothing transition hSilent =>
      cases transition with
      | next t =>
        obtain ⟨sequences, hSees⟩ := ih t
        have hOnto (k : Sink) : iterate p limits (fuel + 1) (s.onto k) =
            iterate p limits fuel (t.onto k) := by
          rw [iterate, hSilent]
          rfl
        refine ⟨sequences, fun k k' hAlike => ?_⟩
        rw [hOnto, hOnto]
        exact hSees k k' hAlike
      | halt t failure =>
        have hOnto (k : Sink) :
            iterate p limits (fuel + 1) (s.onto k) = some (t.onto k, failure) := by
          rw [iterate, hSilent]
          rfl
        refine ⟨[], fun k k' _ => ?_⟩
        rw [hOnto, hOnto]
        rintro _ _ ⟨rfl, rfl⟩
        exact ⟨rfl, rfl⟩
    | sequence bytes next stopped f hNext hStopped =>
      obtain ⟨sequences, hSees⟩ := ih next
      refine ⟨bytes :: sequences, fun k k' hAlike => ?_⟩
      rw [Sink.offered, Sink.offered, iterate, iterate]
      obtain ⟨j, j', hFirst, hSecond, hRest⟩ | ⟨reason, j, j', hFirst, hSecond⟩ :=
        Sink.alike_of_answers sequences hAlike
      · rw [hNext k j hFirst, hNext k' j' hSecond, offer_of_written sequences hFirst,
          offer_of_written sequences hSecond]
        exact hSees j j' hRest
      · rw [hStopped k j reason hFirst, hStopped k' j' reason hSecond,
          offer_of_refused sequences hFirst, offer_of_refused sequences hSecond]
        rintro _ _ ⟨rfl, rfl⟩
        exact ⟨rfl, rfl⟩

theorem conclude_onto {k : Sink} (s : State) (failure : Option Failure)
    (hFlush : k.flush = s.host.sink.flush) :
    conclude (s.onto k) failure = (conclude s failure).onto k := by
  cases failure with
  | some f => rfl
  | none =>
    cases hOwn : s.host.sink.flush with
    | some reason =>
      have hOther : (s.onto k).host.sink.flush = some reason := hFlush.trans hOwn
      rw [conclude, conclude, hOwn, hOther]
      rfl
    | none =>
      have hOther : (s.onto k).host.sink.flush = none := hFlush.trans hOwn
      rw [conclude, conclude, hOwn, hOther]
      rfl

/-- A run offers its sink sequences of bytes that are the same for all sinks. Two sinks of which the
same are taken whole, the next is refused for the same reason, and what was taken can be flushed
alike, make no difference to it. -/
theorem run_sees (fuel : Nat) (h : Host) :
    ∃ sequences, ∀ k k' : Sink, k'.answers sequences = k.answers sequences →
      ∀ report, run fuel p limits { h with sink := k } = some report →
        report.host.sink = (k.offered sequences).left ∧
          run fuel p limits { h with sink := k' } =
            some (report.onto (k'.offered sequences).left) := by
  have hSilent (report : Report)
      (hRun : ∀ k, run fuel p limits { h with sink := k } = some (report.onto k)) :
      ∃ sequences, ∀ k k' : Sink, k'.answers sequences = k.answers sequences →
        ∀ r, run fuel p limits { h with sink := k } = some r →
          r.host.sink = (k.offered sequences).left ∧
            run fuel p limits { h with sink := k' } =
              some (r.onto (k'.offered sequences).left) := by
    refine ⟨[], fun k k' _ => ?_⟩
    rw [hRun, hRun]
    rintro _ ⟨rfl⟩
    exact ⟨rfl, rfl⟩
  cases hVerify : p.verify with
  | error defect =>
    refine hSilent ⟨.error { fault := .internal defect.message }, 0, [], h⟩ fun k => ?_
    rw [run, hVerify]
    rfl
  | ok _ =>
    cases hEntry : p.entryBlock? with
    | none =>
      refine hSilent ⟨.error { fault := .internal "program has no entry block" }, 0, [], h⟩
        fun k => ?_
      rw [run, hVerify, hEntry]
      rfl
    | some entry =>
      by_cases hCrowded : limits.maxFrames ≤ h.depth
      · have hFull (k : Sink) : limits.maxFrames ≤ Host.depth { h with sink := k } := hCrowded
        refine hSilent
          (conclude (start p entry h) (some { fault := .frameLimit limits.maxFrames })) fun k => ?_
        rw [run_of_entry hVerify hEntry, runFrom, if_pos (hFull k)]
        rfl
      · obtain ⟨sequences, hSees⟩ :=
          iterate_sees p limits fuel (start p entry (h.push (.block entry.activation)))
        have hRoom (k : Sink) : ¬ limits.maxFrames ≤ Host.depth { h with sink := k } := hCrowded
        have hOnto (k : Sink) : run fuel p limits { h with sink := k } =
            (iterate p limits fuel ((start p entry (h.push (.block entry.activation))).onto k)).map
              fun last => conclude last.1 last.2 := by
          rw [run_of_entry hVerify hEntry, runFrom, if_neg (hRoom k)]
          rfl
        refine ⟨sequences, fun k k' hAlike report hRun => ?_⟩
        rw [hOnto] at hRun
        obtain ⟨⟨last, failure⟩, hIterate, rfl⟩ := Option.map_eq_some_iff.mp hRun
        obtain ⟨hLeft, hOther⟩ := hSees k k' hAlike last failure hIterate
        have hFlush : (k'.offered sequences).left.flush = last.host.sink.flush :=
          (congrArg Answers.flush hAlike).trans (congrArg Sink.flush hLeft.symm)
        refine ⟨(conclude_sink last failure).trans hLeft, ?_⟩
        rw [hOnto, hOther, Option.map_some, conclude_onto last failure hFlush]

end Machine

end BlockMachine
