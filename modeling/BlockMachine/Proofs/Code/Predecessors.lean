import BlockMachine.Machine.Trace
import BlockMachine.Proofs.Code.Lines
import BlockMachine.Proofs.Code.Verifier
import Mathlib.Data.List.Nodup

/-!
# The blocks that lead to a block
The listing of a well-formed program shows above each block those that lead to it.
-/

namespace BlockMachine
set_option autoImplicit false

theorem eraseDups_of_nodup {α : Type} [DecidableEq α] {xs : List α} (h : xs.Nodup) :
    xs.eraseDups = xs := by
  induction xs with
  | nil => rfl
  | cons x xs ih =>
    obtain ⟨hNew, hRest⟩ := List.nodup_cons.mp h
    have hKept : xs.filter (fun y => !y == x) = xs := by
      refine List.filter_eq_self.mpr fun y hy => ?_
      rw [Bool.not_eq_true', beq_eq_false_iff_ne]
      exact ne_of_mem_of_not_mem hy hNew
    rw [List.eraseDups_cons, hKept, ih hRest]

namespace Program

variable {p : Program} {l target : Label}

theorem WellFormed.block?_label (hp : p.WellFormed) {b : CodeBlock} (hb : b ∈ p.blocks) :
    p.block? b.label = some b := by
  obtain ⟨k, hk⟩ := List.mem_iff_getElem?.mp hb
  rw [block?, (hp.blocks_wf k b hk).label_eq]
  exact hk

theorem WellFormed.labels_ascending (hp : p.WellFormed) :
    (p.blocks.map (·.label)).Pairwise (·.index < ·.index) := by
  rw [List.pairwise_iff_getElem]
  intro j k hj hk hLt
  rw [List.length_map] at hj hk
  rw [List.getElem_map, List.getElem_map,
    (hp.blocks_wf j _ (List.getElem?_eq_getElem hj)).label_eq,
    (hp.blocks_wf k _ (List.getElem?_eq_getElem hk)).label_eq]
  exact hLt

theorem predecessors_eq (hp : p.WellFormed) (target : Label) :
    p.predecessors target =
      (p.blocks.filter fun b => b.instrs.any fun i => i.targets.contains target).map (·.label) := by
  refine eraseDups_of_nodup ?_
  have hNodup : (p.blocks.map (·.label)).Nodup :=
    hp.labels_ascending.imp fun hLt hEq => absurd (congrArg Label.index hEq) (Nat.ne_of_lt hLt)
  exact hNodup.sublist (List.filter_sublist.map _)

theorem mem_predecessors_iff (hp : p.WellFormed) : l ∈ p.predecessors target ↔ p.Leads l target := by
  rw [predecessors_eq hp, List.mem_map]
  simp only [List.mem_filter, List.any_eq_true, List.contains_iff_mem]
  constructor
  · rintro ⟨b, ⟨hb, i, hi, hTarget⟩, rfl⟩
    exact ⟨b, hp.block?_label hb, i, hi, hTarget⟩
  · rintro ⟨b, hb, i, hi, hTarget⟩
    exact ⟨b, ⟨List.mem_of_getElem? hb, i, hi, hTarget⟩, hp.label_eq hb⟩

theorem predecessors_ascending (hp : p.WellFormed) (target : Label) :
    (p.predecessors target).Pairwise (·.index < ·.index) := by
  rw [predecessors_eq hp]
  exact hp.labels_ascending.sublist (List.filter_sublist.map _)

theorem showsSources_predecessors (hp : p.WellFormed) (b : CodeBlock) :
    p.ShowsSources b (p.predecessors b.label) where
  printed := by
    refine ⟨p.titleLine b, countLine b, instrLines b 0 b.instrs ++ [""], ?_⟩
    rw [blockLines_eq, headLines, sourceLines, codeLines]
    simp only [List.isEmpty_iff, List.append_assoc]
    rfl
  leads l := mem_predecessors_iff hp
  ascending := predecessors_ascending hp b.label

end Program

end BlockMachine
