import BlockMachine.Proofs.Lowering.Effects

/-!
# Walks under a step limit
Up to its limit, a walk goes where it would go without. So it stops at the limit exactly if the walk
without one needs more steps.
-/

namespace BlockMachine.Walk
set_option autoImplicit false

variable {g : Graph} {constants : Constants} {maxSteps : Option Nat} {b : BlockId} {m : Nat}
  {s t : State} {fault : Option (Fault OperandId)}

theorem step_over {node : Node} {rest : List Node} (hRest : s.rest = node :: rest)
    (hOver : m < s.steps + node.action.cost) :
    ∃ t, step g constants (some m) s = .halt t (some (.stepLimit m)) := by
  have hFilter : (some m).filter (· < s.steps + node.action.cost) = some m := by
    simpa [Option.filter] using hOver
  rw [step, hRest]
  dsimp only
  rw [hFilter]
  exact ⟨_, rfl⟩

theorem step_within {node : Node} {rest : List Node} (hRest : s.rest = node :: rest)
    (hWithin : ¬ m < s.steps + node.action.cost) :
    step g constants (some m) s = step g constants none s := by
  have hFilter : (some m).filter (· < s.steps + node.action.cost) = none := by
    simpa [Option.filter] using hWithin
  rw [step, step, hRest]
  dsimp only
  rw [hFilter]
  rfl

theorem step_end (hRest : s.rest = []) : step g constants maxSteps s = .halt s none := by
  rw [step, hRest]

theorem step_stepLimit {n : Nat}
    (h : step g constants (some m) s = .halt t (some (.stepLimit n))) :
    ∃ node rest, s.rest = node :: rest ∧ m < s.steps + node.action.cost := by
  cases hRest : s.rest with
  | nil =>
    rw [step_end hRest] at h
    cases h
  | cons node rest =>
    refine ⟨node, rest, rfl, Decidable.byContradiction fun hWithin => ?_⟩
    rw [step_within hRest hWithin, step, hRest] at h
    dsimp only [Option.filter] at h
    split at h
    · rename_i effect warnings hEffect
      cases effect with
      | store | output => cases h
      | transfer target =>
        rw [perform, enter] at h
        split at h
        · cases h
        · cases h
    · rename_i fault warnings hFault
      cases h
      exact node.action.effect_ne_stepLimit constants s.valuation [] warnings n hFault

namespace Visits

theorem unlimited (h : Visits g constants (some m) b s) : Visits g constants none b s := by
  induction h with
  | enter hEnter => exact .enter hEnter
  | @step s t _ hStep ih =>
    cases hRest : s.rest with
    | nil =>
      rw [step_end hRest] at hStep
      cases hStep
    | cons node rest =>
      by_cases hOver : m < s.steps + node.action.cost
      · have hHalt : ∃ u, Walk.step g constants (some m) s = .halt u (some (.stepLimit m)) :=
          step_over hRest hOver
        obtain ⟨u, hHalt⟩ := hHalt
        rw [hHalt] at hStep
        cases hStep
      · exact ih.step (step_within hRest hOver ▸ hStep)

/-- What the walk comes through without limit, it comes through with one unless it is stopped. -/
theorem limited (h : Visits g constants none b s) :
    Visits g constants (some m) b s ∨ ∃ t u, Visits g constants (some m) b t ∧
      Walk.step g constants (some m) t = .halt u (some (.stepLimit m)) := by
  induction h with
  | enter hEnter => exact .inl (.enter hEnter)
  | @step s t _ hStep ih =>
    rcases ih with hVisits | hStopped
    · cases hRest : s.rest with
      | nil =>
        rw [step_end hRest] at hStep
        cases hStep
      | cons node rest =>
        by_cases hOver : m < s.steps + node.action.cost
        · obtain ⟨u, hHalt⟩ := step_over hRest hOver
          exact .inr ⟨s, u, hVisits, hHalt⟩
        · exact .inl (hVisits.step ((step_within hRest hOver).trans hStep))
    · exact .inr hStopped

theorem exists_run (h : Visits g constants maxSteps b s) {fuel : Nat}
    {r : State × Option (Fault OperandId)} (hRest : iterate g constants maxSteps fuel s = some r) :
    ∃ fuel', run fuel' g constants maxSteps b = some r := by
  induction h generalizing fuel with
  | enter hEnter =>
    refine ⟨fuel, ?_⟩
    rw [run, hEnter]
    exact hRest
  | @step u v _ hStep ih =>
    have hMore : iterate g constants maxSteps (fuel + 1) u = some r := by
      rw [iterate, hStep]
      exact hRest
    exact ih hMore

theorem of_iterate (h : Visits g constants maxSteps b s) {fuel : Nat}
    (hRest : iterate g constants maxSteps fuel s = some (t, fault)) :
    ∃ u, Visits g constants maxSteps b u ∧ Walk.step g constants maxSteps u = .halt t fault := by
  induction fuel generalizing s with
  | zero => cases hRest
  | succ fuel ih =>
    rw [iterate] at hRest
    split at hRest
    · rename_i hStep
      exact ih (h.step hStep) hRest
    · rename_i hStep
      cases hRest
      exact ⟨s, h, hStep⟩

end Visits

theorem exists_stepLimit_iff :
    (∃ fuel w, run fuel g constants (some m) b = some (w, some (.stepLimit m))) ↔
      Exceeds g constants b m := by
  constructor
  · rintro ⟨fuel, w, hRun⟩
    rw [run] at hRun
    split at hRun
    · rename_i s hEnter
      obtain ⟨u, hVisits, hHalt⟩ := (Visits.enter hEnter).of_iterate hRun
      obtain ⟨node, rest, hRest, hOver⟩ := step_stepLimit hHalt
      exact ⟨u, node, rest, hVisits.unlimited, hRest, hOver⟩
    · rename_i s fault hEnter
      rw [enter] at hEnter
      split at hEnter
      · cases hEnter
      · cases hEnter
        cases hRun
  · rintro ⟨s, node, rest, hVisits, hRest, hOver⟩
    have hStopped : ∃ t u, Visits g constants (some m) b t ∧
        step g constants (some m) t = .halt u (some (.stepLimit m)) := by
      rcases hVisits.limited (m := m) with hThere | hStopped
      · obtain ⟨u, hHalt⟩ := step_over hRest hOver
        exact ⟨s, u, hThere, hHalt⟩
      · exact hStopped
    obtain ⟨t, u, hThere, hHalt⟩ := hStopped
    have hLast : iterate g constants (some m) 1 t = some (u, some (.stepLimit m)) := by
      rw [iterate, hHalt]
    obtain ⟨fuel, hRun⟩ := hThere.exists_run hLast
    exact ⟨fuel, u, hRun⟩

end BlockMachine.Walk
