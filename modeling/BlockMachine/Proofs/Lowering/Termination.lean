import BlockMachine.Lowering.Worklist
import BlockMachine.Proofs.Lowering.Blocks

/-!
# Lowering comes to an end
However the blocks of a graph refer to each other, its roots are worked off after finitely many
turns: every turn fills a block that was not filled before. The bound on turns that lowering counts
down is therefore never what ends it.
-/

namespace BlockMachine
set_option autoImplicit false

namespace Lowering

open Draft

variable {g : Graph} {roots : List BlockId} {d d' : Draft}

theorem WorksOff.unique {result result' : EStateM.Result Refusal Draft Unit}
    (h : WorksOff g roots d result) (h' : WorksOff g roots d result') : result = result' := by
  induction h with
  | done hNone => cases h' <;> grind
  | block hNext hBlock hRest ih => cases h' <;> grind
  | blockRefused hNext hBlock => cases h' <;> grind
  | root hNone hLabel hRest ih => cases h' <;> grind
  | rootRefused hNone hLabel => cases h' <;> grind

section Turns

variable {n : Nat}

theorem lowerPending_of_none (hNext : d.registered[d.finished.length]? = none) :
    lowerPending g n d = .ok () d := by
  cases n with
  | zero => rfl
  | succ n =>
    rw [lowerPending, Outcome.bind_of_ok (rfl : (get : Lowering Draft) d = .ok d d), hNext]
    rfl

theorem lowerPending_of_some {b : BlockId} (hNext : d.registered[d.finished.length]? = some b) :
    lowerPending g (n + 1) d =
      (lowerBlock g ⟨d.finished.length⟩ b >>= fun _ => lowerPending g n) d := by
  rw [lowerPending, Outcome.bind_of_ok (rfl : (get : Lowering Draft) d = .ok d d), hNext]

theorem WorksOff.of_pending_ok {u : Unit} {result : EStateM.Result Refusal Draft Unit}
    (h : lowerPending g n d = .ok u d') (hRest : WorksOff g roots d' result) :
    WorksOff g roots d result := by
  induction n generalizing d with
  | zero =>
    cases h
    exact hRest
  | succ n ih =>
    cases hNext : d.registered[d.finished.length]? with
    | none =>
      rw [lowerPending_of_none hNext] at h
      cases h
      exact hRest
    | some b =>
      rw [lowerPending_of_some hNext] at h
      obtain ⟨u, d₁, hBlock, h⟩ := Outcome.bind_eq_ok_iff.mp h
      exact .block hNext hBlock (ih h)

theorem WorksOff.of_pending_error {r : Refusal} (h : lowerPending g n d = .error r d') :
    WorksOff g roots d (.error r d') := by
  induction n generalizing d with
  | zero => cases h
  | succ n ih =>
    cases hNext : d.registered[d.finished.length]? with
    | none =>
      rw [lowerPending_of_none hNext] at h
      cases h
    | some b =>
      rw [lowerPending_of_some hNext] at h
      rcases Outcome.bind_eq_error_iff.mp h with hBlock | ⟨u, d₁, hBlock, h⟩
      · exact .blockRefused hNext hBlock
      · exact .block hNext hBlock (ih h)

end Turns

theorem next_eq_none {roots : List BlockId} {spares : List (List (List Slot))}
    (hs : Settled g roots d d.registered spares) : d.registered[d.finished.length]? = none := by
  rw [hs.length]
  exact List.getElem?_eq_none (Nat.le_refl _)

section Roots

variable {rs : List BlockId} {spares : List (List (List Slot))}

theorem worksOff_of_roots_ok {labels : List Label} (hRoots : ∀ r ∈ rs, r ∈ roots)
    (hs : Settled g roots d d.registered spares) (h : rs.mapM (lowerRoot g) d = .ok labels d') :
    WorksOff g rs d (.ok () d') := by
  induction rs generalizing d spares labels with
  | nil =>
    rw [List.mapM_nil] at h
    cases h
    exact .done (next_eq_none hs)
  | cons root rs ih =>
    rw [List.mapM_cons] at h
    obtain ⟨l, d₂, hRoot, h⟩ := Outcome.bind_eq_ok_iff.mp h
    obtain ⟨ls, d₃, hRest, hReturn⟩ := Outcome.bind_eq_ok_iff.mp h
    cases hReturn
    obtain ⟨hHead, hTail⟩ := List.forall_mem_cons.mp hRoots
    obtain ⟨⟨spares', hs'⟩, -⟩ := lowerRoot_ok hHead hs hRoot
    obtain ⟨label, d₁, hLabel, hRoot⟩ := Outcome.bind_eq_ok_iff.mp hRoot
    obtain ⟨u, d₂, hPending, hReturn⟩ := Outcome.bind_eq_ok_iff.mp hRoot
    cases hReturn
    exact .root (next_eq_none hs) hLabel (.of_pending_ok hPending (ih hTail hs' hRest))

theorem worksOff_of_roots_error {r : Refusal} (hRoots : ∀ r ∈ rs, r ∈ roots)
    (hs : Settled g roots d d.registered spares) (h : rs.mapM (lowerRoot g) d = .error r d') :
    WorksOff g rs d (.error r d') := by
  induction rs generalizing d spares with
  | nil =>
    rw [List.mapM_nil] at h
    cases h
  | cons root rs ih =>
    obtain ⟨hHead, hTail⟩ := List.forall_mem_cons.mp hRoots
    rw [List.mapM_cons] at h
    rcases Outcome.bind_eq_error_iff.mp h with hRoot | ⟨l, d₂, hRoot, h⟩
    · rcases Outcome.bind_eq_error_iff.mp hRoot with hLabel | ⟨label, d₁, hLabel, hRoot⟩
      · exact .rootRefused (next_eq_none hs) hLabel
      · rcases Outcome.bind_eq_error_iff.mp hRoot with hPending | ⟨u, d₂, -, hReturn⟩
        · exact .root (next_eq_none hs) hLabel (.of_pending_error hPending)
        · cases hReturn
    · obtain ⟨⟨spares', hs'⟩, -⟩ := lowerRoot_ok hHead hs hRoot
      rcases Outcome.bind_eq_error_iff.mp h with hRest | ⟨ls, d₃, -, hReturn⟩
      · obtain ⟨label, d₁, hLabel, hRoot⟩ := Outcome.bind_eq_ok_iff.mp hRoot
        obtain ⟨u, d₂, hPending, hReturn⟩ := Outcome.bind_eq_ok_iff.mp hRoot
        cases hReturn
        exact .root (next_eq_none hs) hLabel (.of_pending_ok hPending (ih hTail hs' hRest))
      · cases hReturn

end Roots

end Lowering

namespace Graph

open Lowering

variable {g : Graph} {roots : List BlockId}

/-- The roots of a graph are worked off in the end, and lowering comes to what they come to. -/
theorem exists_worksOff (g : Graph) (roots : List BlockId) :
    ∃ result, WorksOff g roots {} result ∧ g.lower roots = outcome roots result := by
  have hs := Draft.settled_empty g roots
  cases hRoots : roots.mapM (lowerRoot g) {} with
  | error r d =>
    refine ⟨.error r d, worksOff_of_roots_error (fun _ hr => hr) hs hRoots, ?_⟩
    rw [lower, lowering, lowerRoots, Outcome.bind_of_error hRoots]
    rfl
  | ok labels d =>
    refine ⟨.ok () d, worksOff_of_roots_ok (fun _ hr => hr) hs hRoots, ?_⟩
    cases roots with
    | nil =>
      rw [List.mapM_nil] at hRoots
      cases hRoots
      rfl
    | cons root rs =>
      have hLabels := hRoots
      rw [List.mapM_cons] at hLabels
      obtain ⟨l, d₁, -, hLabels⟩ := Outcome.bind_eq_ok_iff.mp hLabels
      obtain ⟨ls, d₂, -, hReturn⟩ := Outcome.bind_eq_ok_iff.mp hLabels
      cases hReturn
      have hLowering : g.lowering (root :: rs) = (.ok {
          blocks := d.finished.map fun b => { b with scopeSize := d.nextSlot }
          entry := l
          slotCount := d.nextSlot },
          d.events ++ [.programDone d.finished.length d.nextSlot l]) := by
        rw [lowering, lowerRoots, Outcome.bind_of_ok hRoots]
        rfl
      obtain ⟨layout, -, hProgram, -⟩ := exists_layout hLowering
      have hEntry : l = ⟨0⟩ := congrArg Program.entry hProgram
      rw [lower, hLowering, outcome, if_neg (List.cons_ne_nil root rs), hEntry]

end Graph

end BlockMachine
