import BlockMachine.Code.Requirement
import BlockMachine.Proofs.Code.Verifier

/-!
# The first defect
The verifier goes through the requirements of a program in their order, and reports the first one
that is not met.
-/

namespace BlockMachine
set_option autoImplicit false

namespace Requirement

variable {p : Program} {q : Requirement} {d : Defect}

theorem violation?_of_met (h : q.Met p) : q.violation? p = none := if_pos h

theorem violation?_of_not_met (h : ¬ q.Met p) : q.violation? p = some (q.defect p) := if_neg h

theorem violation?_eq_none_iff : q.violation? p = none ↔ q.Met p := by
  rw [violation?]
  split <;> simp_all

theorem violation?_eq_some_iff : q.violation? p = some d ↔ ¬ q.Met p ∧ d = q.defect p := by
  rw [violation?]
  split <;> simp_all [eq_comm]

theorem findSome?_map_violation? {α : Type} (kind : α → Requirement) (wrong : α → Bool)
    (h : ∀ x, wrong x = true ↔ ¬ (kind x).Met p) (xs : List α) :
    (xs.map kind).findSome? (violation? p) = (xs.find? wrong).map fun x => (kind x).defect p := by
  induction xs with
  | nil => rfl
  | cons x xs ih =>
    rw [List.map_cons, List.findSome?_cons, List.find?_cons, ih]
    by_cases hMet : (kind x).Met p
    · rw [violation?_of_met hMet, Bool.eq_false_iff.mpr (mt (h x).mp (not_not_intro hMet))]
    · rw [violation?_of_not_met hMet, (h x).mpr hMet]
      rfl

end Requirement

open Requirement

theorem Instr.slots_eq (i : Instr) : i.slots = i.result?.toList ++ i.inputs := by
  cases i with
  | constFetch result name qualified => cases qualified <;> rfl
  | echo | assign | binary | jump | branch => rfl

namespace Program

variable (p : Program) (b : CodeBlock)

theorem instrDefect?_eq (pc : Nat) (i : Instr) :
    p.instrDefect? b pc i = (i.requirements b pc).findSome? (violation? p) := by
  have hSlots := findSome?_map_violation? (p := p) (.slot b pc i) (b.scopeSize ≤ ·)
    (fun s => by simp [Met]) i.slots
  have hTargets := findSome?_map_violation? (.target b pc i) (fun t => (p.block? t).isNone)
    (fun t => block?_eq_none_iff p t) i.targets
  rw [Instr.requirements, ← Instr.slots_eq, List.findSome?_append, hSlots, hTargets, instrDefect?]
  cases i.slots.find? (b.scopeSize ≤ ·) <;> rfl

theorem instrsDefect?_eq (pc : Nat) (is : List Instr) :
    p.instrsDefect? b pc is =
      ((is.zipIdx pc).flatMap fun (i, pc) => i.requirements b pc).findSome? (violation? p) := by
  induction is generalizing pc with
  | nil => rfl
  | cons i is ih =>
    rw [instrsDefect?, Option.orElse_eq_orElse, Option.orElse_eq_or, instrDefect?_eq, ih,
      List.zipIdx_cons, List.flatMap_cons, List.findSome?_append]

theorem blockDefect?_eq (index : Nat) :
    p.blockDefect? index b = (b.requirements index).findSome? (violation? p) := by
  have hConstants := findSome?_map_violation? (p := p) (.constant b) (b.scopeSize ≤ ·.slot)
    (fun c => by simp [Met]) b.constants
  rw [CodeBlock.requirements, List.findSome?_append, List.findSome?_append, hConstants,
    ← instrsDefect?_eq, List.findSome?_cons, List.findSome?_cons, blockDefect?]
  by_cases hLabel : b.label.index = index
  · rw [if_neg (not_not_intro hLabel), violation?_of_met (q := .label index b) hLabel]
    by_cases hLines : b.lines.length = b.instrs.length
    · rw [if_neg (not_not_intro hLines.symm), violation?_of_met (q := .lineTable b) hLines]
      cases b.constants.find? (b.scopeSize ≤ ·.slot) <;> rfl
    · rw [if_pos (Ne.symm hLines), violation?_of_not_met (q := .lineTable b) hLines]
      rfl
  · rw [if_pos hLabel, violation?_of_not_met (q := .label index b) hLabel]
    rfl

theorem blocksDefect?_eq (index : Nat) (bs : List CodeBlock) :
    p.blocksDefect? index bs =
      ((bs.zipIdx index).flatMap fun (b, index) => b.requirements index).findSome?
        (violation? p) := by
  induction bs generalizing index with
  | nil => rfl
  | cons b bs ih =>
    rw [blocksDefect?, Option.orElse_eq_orElse, Option.orElse_eq_or, blockDefect?_eq, ih,
      List.zipIdx_cons, List.flatMap_cons, List.findSome?_append]

theorem defect?_eq : p.defect? = p.requirements.findSome? (violation? p) := by
  rw [defect?, requirements, List.findSome?_cons, ← blocksDefect?_eq]
  by_cases hEntry : p.entry.index < p.blocks.length
  · rw [if_neg (mt (block?_eq_none_iff p p.entry).mp (not_not_intro hEntry)),
      violation?_of_met (q := .entry) hEntry]
  · rw [if_pos ((block?_eq_none_iff p p.entry).mpr hEntry),
      violation?_of_not_met (q := .entry) hEntry]
    rfl

theorem defect?_eq_some_iff {d : Defect} : p.defect? = some d ↔ ∃ before q after,
    p.requirements = before ++ q :: after ∧ (∀ r ∈ before, r.Met p) ∧ ¬ q.Met p ∧
      d = q.defect p := by
  rw [defect?_eq, List.findSome?_eq_some_iff]
  constructor
  · rintro ⟨before, q, after, hSplit, hViolated, hMet⟩
    obtain ⟨hNot, hDefect⟩ := violation?_eq_some_iff.mp hViolated
    exact ⟨before, q, after, hSplit, fun r hr => violation?_eq_none_iff.mp (hMet r hr), hNot, hDefect⟩
  · rintro ⟨before, q, after, hSplit, hMet, hNot, hDefect⟩
    exact ⟨before, q, after, hSplit, violation?_eq_some_iff.mpr ⟨hNot, hDefect⟩,
      fun r hr => violation?_eq_none_iff.mpr (hMet r hr)⟩

theorem wellFormed_iff : p.WellFormed ↔ ∀ q ∈ p.requirements, q.Met p := by
  rw [← defect?_eq_none_iff, defect?_eq, List.findSome?_eq_none_iff]
  exact forall₂_congr fun q _ => violation?_eq_none_iff

theorem verify_eq_error_iff {d : Defect} : p.verify = .error d ↔ p.defect? = some d := by
  rw [verify]
  cases p.defect? <;> simp

/-- The verifier passes a program exactly if it is well formed, which is to say that it meets all
its requirements. Any other program is refused with the defect of the first requirement that it does
not meet. -/
theorem verify_first_defect (p : Program) :
    (p.verify = .ok () ↔ p.WellFormed) ∧ (p.WellFormed ↔ ∀ q ∈ p.requirements, q.Met p) ∧
    ∀ d, p.verify = .error d ↔ ∃ before q after, p.requirements = before ++ q :: after ∧
      (∀ r ∈ before, r.Met p) ∧ ¬ q.Met p ∧ d = q.defect p :=
  ⟨p.verify_eq_ok_iff, p.wellFormed_iff,
    fun _ => p.verify_eq_error_iff.trans p.defect?_eq_some_iff⟩

/-- The second block has more than one thing wrong: a name and a qualified name out of its scope, a
missing target, and behind them a constant and a label of the third one. -/
def patchwork : Program where
  blocks := [
    { label := ⟨0⟩, origin := ⟨0⟩, instrs := [.jump ⟨1⟩], lines := [none] },
    { label := ⟨1⟩, origin := ⟨1⟩, lines := [none, none, none], scopeSize := 2
      instrs := [.echo 1, .constFetch 0 5 (some 9), .branch 3 ⟨7⟩ ⟨0⟩] },
    { label := ⟨0⟩, origin := ⟨2⟩, constants := [⟨⟨0⟩, 4, .unknown⟩], scopeSize := 4 }]
  entry := ⟨0⟩
  slotCount := 2

example : patchwork.verify = .error (.slotOutOfRange ⟨1⟩ 1 "CONST_FETCH" 5 2) := rfl

end Program

end BlockMachine
