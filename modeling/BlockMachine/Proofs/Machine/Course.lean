import BlockMachine.Code.Flow
import BlockMachine.Machine.Course
import BlockMachine.Proofs.Machine.Footprint

/-!
# What the course of a frame says
Whatever runs is a frame that was taken off the stack of the run, with all frames below it still in
their places. The blocks it has entered tell which one it is in, and which one it came from.
-/

namespace BlockMachine.Machine
set_option autoImplicit false

variable {p : Program} {limits : Limits} {h : Host} {first a a' : Activation} {b : CodeBlock}
  {i : Instr} {entered : List Label} {n : Nat} {s t : State}

theorem Visits.wellFormed (hVisits : Visits p limits h s) : p.WellFormed :=
  (p.verify_eq_ok_iff).mp hVisits.1

theorem Visits.step (hVisits : Visits p limits h s) (hStep : Machine.step p limits s = .next t) :
    Visits p limits h t := by
  obtain ⟨hVerify, hRoom, entry, hEntry, hReaches⟩ := hVisits
  exact ⟨hVerify, hRoom, entry, hEntry, hReaches.step hStep⟩

/-- What goes on without an instruction: a call to the host, a frame that is taken off the stack, or
one that has come to its end. -/
theorem next_of_idle (hIdle : ∀ a b i, ¬ s.At p a b (some i))
    (hStep : Machine.step p limits s = .next t) :
    (∃ name rest, s.running = none ∧ s.host.pending = .continuation name :: rest ∧
      t = { s.report (.called name) with host.pending := rest }) ∨
    (∃ first rest, s.running = none ∧ s.host.pending = .block first :: rest ∧
      t = { s with running := some first, host.pending := rest }) ∨
    ∃ a b, s.At p a b none ∧ t = { s with running := none } := by
  obtain hNone | ⟨a, hRunning, hBlock⟩ | ⟨a, b, hAt⟩ | ⟨a, b, i, hAt⟩ := stands p s
  · rw [step_of_none hNone, resume] at hStep
    split at hStep
    · cases hStep
    · rename_i name rest hPending
      exact .inl ⟨name, rest, hNone, hPending, (Transition.next.inj hStep).symm⟩
    · rename_i first rest hPending
      exact .inr (.inl ⟨first, rest, hNone, hPending, (Transition.next.inj hStep).symm⟩)
  · rw [step_of_missing hRunning hBlock] at hStep
    cases hStep
  · rw [step_at_end hAt] at hStep
    exact .inr (.inr ⟨a, b, hAt, (Transition.next.inj hStep).symm⟩)
  · exact absurd hAt (hIdle a b i)

theorem step_taken {rest : List Frame} (hNone : s.running = none)
    (hPending : s.host.pending = .block first :: rest) (hStep : step p limits s = .next t) :
    t.running = some first ∧ t.host.pending = rest := by
  rw [step_of_none hNone, resume, hPending] at hStep
  cases hStep
  exact ⟨rfl, rfl⟩

theorem step_stayed (hp : p.WellFormed) (hAt : s.At p a b (some i)) (hTargets : i.targets = [])
    (hStep : step p limits s = .next t) : t.host.pending = s.host.pending ∧
      ∃ after, t.running = some { a with scope := after, pc := a.pc + 1 } := by
  obtain ⟨hPending, a', hRunning, hLeaves⟩ := step_leaves hp hAt hStep
  refine ⟨hPending, ?_⟩
  cases hLeaves with
  | inBlock _ _ => exact ⟨_, hRunning⟩
  | elsewhere hTarget _ _ _ =>
    rw [hTargets] at hTarget
    cases hTarget

theorem step_jumped (hp : p.WellFormed) (hAt : s.At p a b (some i)) (hTargets : i.targets ≠ [])
    (hStep : step p limits s = .next t) (hRunning : t.running = some a') :
    t.host.pending = s.host.pending ∧ p.Leads a.code a'.code ∧ a'.pc = 0 ∧
      a'.cameFrom = some a.code := by
  obtain ⟨hPending, c, hc, hLeaves⟩ := step_leaves hp hAt hStep
  cases hc.symm.trans hRunning
  refine ⟨hPending, ?_⟩
  cases hLeaves with
  | inBlock hNone _ => exact absurd hNone hTargets
  | elsewhere hTarget _ _ _ =>
    exact ⟨⟨b, hAt.block, i, List.mem_of_getElem? hAt.instr, hTarget⟩, rfl, rfl⟩

namespace Course

theorem visits (hCourse : Course p limits h first entered n s) : Visits p limits h s := by
  induction hCourse with
  | taken hVisits _ _ hStep => exact hVisits.step hStep
  | stayed _ _ _ hStep ih => exact ih.step hStep
  | jumped _ _ _ hStep _ ih => exact ih.step hStep

theorem wellFormed (hCourse : Course p limits h first entered n s) : p.WellFormed :=
  hCourse.visits.wellFormed

/-- The running block is the one that was entered last. It came from the one entered before, or
from where the frame was made to come from if that was the first. -/
theorem standing (hCourse : Course p limits h first entered n s) : ∃ a rest,
    s.running = some a ∧ entered = a.code :: rest ∧
      a.cameFrom = rest.head?.or first.cameFrom := by
  induction hCourse with
  | taken _ hNone hPending hStep =>
    exact ⟨first, [], (step_taken hNone hPending hStep).1, rfl, rfl⟩
  | @stayed entered n s t a b i hCourse hAt hTargets hStep ih =>
    obtain ⟨c, rest, hc, hEntered, hFrom⟩ := ih
    cases hAt.running.symm.trans hc
    obtain ⟨-, after, hRunning⟩ := step_stayed hCourse.wellFormed hAt hTargets hStep
    exact ⟨_, rest, hRunning, hEntered, hFrom⟩
  | @jumped entered n s t a a' b i hCourse hAt hTargets hStep hRunning ih =>
    obtain ⟨c, rest, hc, hEntered, -⟩ := ih
    cases hAt.running.symm.trans hc
    obtain ⟨-, -, -, hFrom⟩ := step_jumped hCourse.wellFormed hAt hTargets hStep hRunning
    exact ⟨a', entered, hRunning, rfl, by rw [hFrom, hEntered]; rfl⟩

theorem entered_eq (hCourse : Course p limits h first entered n s) (hRunning : s.running = some a) :
    ∃ rest, entered = a.code :: rest ∧ a.cameFrom = rest.head?.or first.cameFrom := by
  obtain ⟨c, rest, hc, hEntered, hFrom⟩ := hCourse.standing
  cases hRunning.symm.trans hc
  exact ⟨rest, hEntered, hFrom⟩

theorem next (hCourse : Course p limits h first entered n s) (hAt : s.At p a b (some i))
    (hStep : Machine.step p limits s = .next t) :
    ∃ entered', Course p limits h first entered' (n + 1) t := by
  obtain ⟨-, a', hRunning, -⟩ := step_leaves hCourse.wellFormed hAt hStep
  by_cases hTargets : i.targets = []
  · exact ⟨entered, .stayed hCourse hAt hTargets hStep⟩
  · exact ⟨a'.code :: entered, .jumped hCourse hAt hTargets hStep hRunning⟩

end Course

/-- Wherever something runs, a frame has come there on a course. -/
theorem exists_course (hVisits : Visits p limits h s) (hRunning : s.running = some a) :
    ∃ first entered n, Course p limits h first entered n s := by
  obtain ⟨hVerify, hRoom, entry, hEntry, hReaches⟩ := hVisits
  induction hReaches generalizing a with
  | refl => cases hRunning
  | @step s t hReaches hStep ih =>
    have hVisits : Visits p limits h s := ⟨hVerify, hRoom, entry, hEntry, hReaches⟩
    obtain ⟨c, b, i, hAt⟩ | hIdle := at_or_idle p s
    · obtain ⟨first, entered, n, hCourse⟩ := ih hAt.running
      obtain ⟨entered', hNext⟩ := hCourse.next hAt hStep
      exact ⟨first, entered', n + 1, hNext⟩
    · obtain ⟨name, rest, hNone, -, rfl⟩ | ⟨first, rest, hNone, hPending, rfl⟩ | ⟨c, b, -, rfl⟩ :=
        next_of_idle hIdle hStep
      · cases hNone.symm.trans hRunning
      · exact ⟨first, _, _, .taken hVisits hNone hPending hStep⟩
      · cases hRunning

section Stack

variable {entry : CodeBlock}

theorem step_pending (hp : p.WellFormed) (hStep : step p limits s = .next t) :
    t.host.pending <:+ s.host.pending := by
  obtain ⟨a, b, i, hAt⟩ | hIdle := at_or_idle p s
  · exact (step_leaves hp hAt hStep).1 ▸ List.suffix_refl _
  · obtain ⟨name, rest, -, hPending, rfl⟩ | ⟨first, rest, -, hPending, rfl⟩ | ⟨a, b, -, rfl⟩ :=
      next_of_idle hIdle hStep
    · exact hPending ▸ List.suffix_cons _ _
    · exact hPending ▸ List.suffix_cons _ _
    · exact List.suffix_refl _

theorem Visits.pending (hVisits : Visits p limits h s) (hEntry : p.entryBlock? = some entry) :
    s.host.pending <:+ frames entry h := by
  have hp := hVisits.wellFormed
  obtain ⟨-, -, entry', hEntry', hReaches⟩ := hVisits
  cases hEntry.symm.trans hEntry'
  induction hReaches with
  | refl => exact List.suffix_refl _
  | step _ hStep ih => exact (step_pending hp hStep).trans ih

/-- The frame was on the stack, and what was below it there is still pending. -/
theorem Course.pending (hCourse : Course p limits h first entered n s)
    (hEntry : p.entryBlock? = some entry) :
    .block first :: s.host.pending <:+ frames entry h := by
  induction hCourse with
  | taken hVisits hNone hPending hStep =>
    rw [(step_taken hNone hPending hStep).2, ← hPending]
    exact hVisits.pending hEntry
  | stayed hCourse hAt hTargets hStep ih =>
    rw [(step_stayed hCourse.wellFormed hAt hTargets hStep).1]
    exact ih
  | jumped hCourse hAt hTargets hStep hRunning ih =>
    rw [(step_jumped hCourse.wellFormed hAt hTargets hStep hRunning).1]
    exact ih

end Stack

end BlockMachine.Machine
