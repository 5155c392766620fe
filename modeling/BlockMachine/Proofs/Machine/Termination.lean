import BlockMachine.Proofs.Code.Flow
import BlockMachine.Proofs.Machine.Counter

/-!
# Runs that end
A run ends because its steps are limited, or because no block leads back to itself: then a frame
comes through different blocks, each of them once and from its beginning to its end, and when it has
come to its end there is one frame less.
-/

namespace BlockMachine.Machine
set_option autoImplicit false

variable {p : Program} {limits : Limits} {h : Host} {first a : Activation} {b : CodeBlock}
  {entered : List Label} {n : Nat} {s t : State}

section Courses

open Relation

theorem State.At.pc_lt {i : Instr} (hAt : s.At p a b (some i)) : a.pc < p.size a.code := by
  rw [Program.size, hAt.block]
  exact (List.getElem?_eq_some_iff.mp hAt.instr).1

namespace Course

/-- Each block that a frame enters is one that the blocks before lead to. -/
theorem order (hCourse : Course p limits h first entered n s) :
    entered.Pairwise fun later earlier => TransGen p.Leads earlier later := by
  induction hCourse with
  | taken _ _ _ _ => exact List.pairwise_singleton _ _
  | stayed _ _ _ _ ih => exact ih
  | jumped hCourse hAt hTargets hStep hRunning ih =>
    obtain ⟨rest, rfl, -⟩ := hCourse.entered_eq hAt.running
    obtain ⟨-, hLeads, -⟩ := step_jumped hCourse.wellFormed hAt hTargets hStep hRunning
    refine List.pairwise_cons.mpr ⟨fun l hl => ?_, ih⟩
    rcases List.mem_cons.mp hl with rfl | hl
    · exact .single hLeads
    · exact .tail (List.rel_of_pairwise_cons ih hl) hLeads

theorem within (hCourse : Course p limits h first entered n s) :
    ∀ l ∈ entered, p.Within [first.code] l := by
  induction hCourse with
  | taken _ _ _ _ =>
    intro l hl
    rw [List.mem_singleton.mp hl]
    exact ⟨first.code, List.mem_singleton_self _, .refl⟩
  | stayed _ _ _ _ ih => exact ih
  | jumped hCourse hAt hTargets hStep hRunning ih =>
    obtain ⟨rest, rfl, -⟩ := hCourse.entered_eq hAt.running
    obtain ⟨-, hLeads, -⟩ := step_jumped hCourse.wellFormed hAt hTargets hStep hRunning
    refine List.forall_mem_cons.mpr ⟨?_, ih⟩
    obtain ⟨r, hr, hBefore⟩ := ih _ List.mem_cons_self
    exact ⟨r, hr, hBefore.tail hLeads⟩

/-- What a frame has carried out are instructions of the blocks it has left, and those of its block
that it has passed. -/
theorem count_le (hCourse : Course p limits h first entered n s) : ∃ a rest,
    s.running = some a ∧ entered = a.code :: rest ∧
      n ≤ (rest.map p.size).sum + min a.pc (p.size a.code) := by
  induction hCourse with
  | taken _ hNone hPending hStep =>
    exact ⟨first, [], (step_taken hNone hPending hStep).1, rfl, Nat.zero_le _⟩
  | stayed hCourse hAt hTargets hStep ih =>
    obtain ⟨c, rest, hc, hEntered, hCount⟩ := ih
    cases hAt.running.symm.trans hc
    obtain ⟨-, after, hRunning⟩ := step_stayed hCourse.wellFormed hAt hTargets hStep
    have hLt := hAt.pc_lt
    refine ⟨_, rest, hRunning, hEntered, ?_⟩
    dsimp only
    omega
  | jumped hCourse hAt hTargets hStep hRunning ih =>
    obtain ⟨c, rest, hc, rfl, hCount⟩ := ih
    cases hAt.running.symm.trans hc
    have hLt := hAt.pc_lt
    refine ⟨_, _, hRunning, rfl, ?_⟩
    rw [List.map_cons, List.sum_cons]
    omega

theorem count_next_le (hCourse : Course p limits h first entered n s) :
    n + (carriedOut? p limits s).toList.length ≤ (entered.map p.size).sum := by
  obtain ⟨a, rest, hRunning, rfl, hCount⟩ := hCourse.count_le
  rw [List.map_cons, List.sum_cons]
  obtain ⟨c, b, i, hAt⟩ | hIdle := at_or_idle p s
  · cases hAt.running.symm.trans hRunning
    have hLt := hAt.pc_lt
    have hOne : (carriedOut? p limits s).toList.length ≤ 1 := by
      cases carriedOut? p limits s <;> simp
    omega
  · rw [carriedOut?_of_idle hIdle]
    dsimp only [Option.toList, List.length_nil]
    omega

theorem nodup (hAcyclic : p.Acyclic [first.code]) (hCourse : Course p limits h first entered n s) :
    entered.Nodup := hAcyclic.nodup hCourse.within hCourse.order

theorem count_le_extent (hAcyclic : p.Acyclic [first.code])
    (hCourse : Course p limits h first entered n s) :
    n + (carriedOut? p limits s).toList.length ≤ p.extent [first.code] :=
  hCourse.count_next_le.trans
    (Program.sum_sizes_le hCourse.wellFormed (hCourse.nodup hAcyclic) hCourse.within)

end Course

/-- Where nothing leads back, a frame comes to its end, unless the machine halts before. -/
theorem Course.ends {entered : List Label} {n : Nat} {s : State}
    (hAcyclic : p.Acyclic [first.code]) (hCourse : Course p limits h first entered n s) :
    (∃ last failure, Halts p limits s last failure) ∨
      ∃ k u, Passes p limits k s u ∧ u.running = none ∧ u.host.pending = s.host.pending := by
  obtain ⟨c, rest, hRunning, -⟩ := hCourse.standing
  cases hStep : step p limits s with
  | halt last failure => exact .inl ⟨last, failure, .of_step hStep⟩
  | next t =>
    obtain ⟨a, b, i, hAt⟩ | hIdle := at_or_idle p s
    · obtain ⟨entered', hNext⟩ := hCourse.next hAt hStep
      have hBound := hNext.count_le_extent hAcyclic
      have hPending := (step_leaves hCourse.wellFormed hAt hStep).1
      rcases hNext.ends hAcyclic with ⟨last, failure, hHalts⟩ | ⟨k, u, hPasses, hNone, hSame⟩
      · exact .inl ⟨last, failure, .of_passes (.single hStep) hHalts⟩
      · exact .inr ⟨k + 1, u, .head hStep hPasses, hNone, hSame.trans hPending⟩
    · obtain ⟨name, rest, hNone, -⟩ | ⟨first, rest, hNone, -⟩ | ⟨a, b, -, rfl⟩ :=
        next_of_idle hIdle hStep
      · cases hNone.symm.trans hRunning
      · cases hNone.symm.trans hRunning
      · exact .inr ⟨1, _, .single hStep, rfl, rfl⟩
termination_by p.extent [first.code] - n

end Courses

theorem Course.first_mem (hCourse : Course p limits h first entered n s) :
    first.code ∈ p.entry :: h.codes := by
  have hp := hCourse.wellFormed
  obtain ⟨entry, hEntry⟩ := Program.exists_block? hp.entry_lt
  have hFrame := (hCourse.pending hEntry).subset List.mem_cons_self
  rcases List.mem_cons.mp hFrame with hFirst | hFirst
  · cases hFirst
    exact List.mem_cons.mpr (.inl (hp.label_eq hEntry))
  · exact List.mem_cons_of_mem _ (List.mem_reverse.mpr (List.mem_filterMap.mpr ⟨_, hFirst, rfl⟩))

theorem Course.first_subset (hCourse : Course p limits h first entered n s) :
    [first.code] ⊆ p.entry :: h.codes :=
  List.cons_subset.mpr ⟨hCourse.first_mem, List.nil_subset _⟩

theorem Visits.passes {k : Nat} (hVisits : Visits p limits h s) (hPasses : Passes p limits k s t) :
    Visits p limits h t := by
  obtain ⟨hVerify, hRoom, entry, hEntry, hReaches⟩ := hVisits
  exact ⟨hVerify, hRoom, entry, hEntry, hPasses.reaches hReaches⟩

/-- Between two frames there are only so many that are pending, and each comes to its end. -/
theorem halts_of_acyclic (hAcyclic : p.Acyclic (p.entry :: h.codes)) (hVisits : Visits p limits h s)
    (hNone : s.running = none) : ∃ last failure, Halts p limits s last failure := by
  generalize hPending : s.host.pending = pending
  induction pending generalizing s with
  | nil => exact ⟨s, none, .of_step (by rw [step_of_none hNone, resume, hPending])⟩
  | cons f rest ih =>
    cases f with
    | continuation name =>
      have hStep : step p limits s =
          .next { s.report (.called name) with host.pending := rest } := by
        rw [step_of_none hNone, resume, hPending]
      obtain ⟨last, failure, hHalts⟩ := ih (hVisits.step hStep) hNone rfl
      exact ⟨last, failure, .of_passes (.single hStep) hHalts⟩
    | block first =>
      have hStep : step p limits s =
          .next { s with running := some first, host.pending := rest } := by
        rw [step_of_none hNone, resume, hPending]
      have hCourse := Course.taken hVisits hNone hPending hStep
      rcases hCourse.ends (hAcyclic.mono hCourse.first_subset) with
        ⟨last, failure, hHalts⟩ | ⟨k, u, hPasses, hDone, hRest⟩
      · exact ⟨last, failure, .of_passes (.single hStep) hHalts⟩
      · have hThrough := Passes.head hStep hPasses
        obtain ⟨last, failure, hHalts⟩ := ih (hVisits.passes hThrough) hDone hRest
        exact ⟨last, failure, .of_passes hThrough hHalts⟩

/-- A run that is refused, or finds no room, is over at once; any other when its machine halts. -/
theorem exists_run_of_halts (hHalts : ∀ s, Visits p limits h s → s.running = none →
    ∃ last failure, Halts p limits s last failure) :
    ∃ fuel report, run fuel p limits h = some report := by
  cases hVerify : p.verify with
  | error d => exact ⟨0, _, by rw [run, hVerify]⟩
  | ok u =>
    obtain ⟨entry, hEntry⟩ := Program.exists_block? ((p.verify_eq_ok_iff).mp hVerify).entry_lt
    have hRun (fuel : Nat) : run fuel p limits h = runFrom fuel p limits entry h :=
      run_of_entry hVerify hEntry h fuel
    by_cases hCrowded : limits.maxFrames ≤ h.depth
    · exact ⟨0, _, (hRun 0).trans (runFrom_of_crowded hCrowded)⟩
    · have hVisits : Visits p limits h (start p entry (h.push (.block entry.activation))) :=
        ⟨hVerify, Nat.lt_of_not_le hCrowded, entry, hEntry, .refl _⟩
      obtain ⟨last, failure, n, s, hPasses, hStep⟩ := hHalts _ hVisits rfl
      obtain ⟨fuel, hReport⟩ := (hVisits.passes hPasses).exists_run hStep
      exact ⟨fuel, _, hReport⟩

theorem halts_of_limit {m : Nat} (hMax : limits.maxSteps = some m) (p : Program) (s : State) :
    ∃ last failure, Halts p limits s last failure := by
  obtain ⟨fuel, ⟨last, failure⟩, hIterate⟩ := exists_iterate (p := p) hMax s
  exact ⟨last, failure, .of_iterate hIterate⟩

/-- Runs end when they must. Under a step limit every run ends, and carries out no more instructions
than the limit. Where no block leads back to itself, of those that the entry and the pending frames
lead to, every run ends, with a limit or without; and each of its frames comes to no block twice,
and carries out no more instructions than there are in the blocks that it can come to. -/
theorem run_terminates (p : Program) (limits : Limits) (h : Host) :
    (∀ m, limits.maxSteps = some m → ∃ fuel report, run fuel p limits h = some report ∧
      runCarried fuel p limits h ≤ m) ∧
    (p.Acyclic (p.entry :: h.codes) →
      (∃ fuel report, run fuel p limits h = some report) ∧
      ∀ first entered n s, Course p limits h first entered n s → entered.Nodup ∧
        n + (carriedOut? p limits s).toList.length ≤ p.extent [first.code] ∧
        p.extent [first.code] ≤ p.extent (p.entry :: h.codes)) := by
  constructor
  · intro m hMax
    obtain ⟨fuel, report, hRun⟩ := exists_run_of_halts fun s _ _ => halts_of_limit hMax p s
    exact ⟨fuel, report, hRun, (run_counted hRun).within m hMax⟩
  · intro hAcyclic
    refine ⟨exists_run_of_halts fun s hVisits hNone => halts_of_acyclic hAcyclic hVisits hNone, ?_⟩
    intro first entered n s hCourse
    have hFrame : p.Acyclic [first.code] := hAcyclic.mono hCourse.first_subset
    exact ⟨hCourse.nodup hFrame, hCourse.count_le_extent hFrame,
      Program.extent_mono hCourse.first_subset⟩

end BlockMachine.Machine
