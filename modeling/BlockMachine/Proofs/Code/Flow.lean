import BlockMachine.Code.Flow
import BlockMachine.Proofs.Code.Verifier
import Mathlib.Algebra.Order.BigOperators.Group.List
import Mathlib.Algebra.Order.Ring.Nat
import Mathlib.Data.List.Nodup
import Mathlib.Data.List.Perm.Subperm

/-!
# Bounds from control flow
Without cycles no block comes after itself, so the blocks that control can come through are
different ones, and have no more instructions than all blocks together that the roots lead to.
-/

namespace BlockMachine.Program
set_option autoImplicit false

open Relation

variable {p : Program} {roots more : List Label} {l : Label}

theorem Within.mono (hMore : roots ⊆ more) (h : p.Within roots l) : p.Within more l := by
  obtain ⟨r, hr, hLeads⟩ := h
  exact ⟨r, hMore hr, hLeads⟩

theorem Acyclic.mono (hMore : roots ⊆ more) (h : p.Acyclic more) : p.Acyclic roots :=
  fun l hWithin => h l (hWithin.mono hMore)

theorem Acyclic.nodup (h : p.Acyclic roots) {ls : List Label} (hWithin : ∀ l ∈ ls, p.Within roots l)
    (hOrder : ls.Pairwise fun later earlier => TransGen p.Leads earlier later) : ls.Nodup := by
  refine hOrder.imp_of_mem ?_
  rintro l l' hl - hLeads rfl
  exact h l (hWithin l hl) hLeads

theorem sum_sizes (p : Program) (ls : List Label) :
    (ls.map p.size).sum = ((ls.filterMap p.block?).map (·.instrs.length)).sum := by
  induction ls with
  | nil => rfl
  | cons l ls ih =>
    rw [List.map_cons, List.sum_cons, ih, size]
    cases hBlock : p.block? l with
    | none => rw [List.filterMap_cons_none hBlock, Option.map_none, Option.getD_none, Nat.zero_add]
    | some b =>
      rw [List.filterMap_cons_some hBlock, List.map_cons, List.sum_cons]
      rfl

theorem sum_le_of_subperm {bs bs' : List CodeBlock} (h : bs.Subperm bs') (f : CodeBlock → Nat) :
    (bs.map f).sum ≤ (bs'.map f).sum := by
  obtain ⟨cs, hPerm, hSub⟩ := h
  rw [← (hPerm.map f).sum_eq]
  exact (hSub.map f).sum_le_sum fun _ _ => Nat.zero_le _

theorem sum_sizes_le (hp : p.WellFormed) {ls : List Label} (hNodup : ls.Nodup)
    (hWithin : ∀ l ∈ ls, p.Within roots l) : (ls.map p.size).sum ≤ p.extent roots := by
  have hBlocks : (ls.filterMap p.block?).Nodup := by
    refine hNodup.filterMap fun l l' b hb hb' => ?_
    exact (hp.label_eq hb).symm.trans (hp.label_eq hb')
  rw [sum_sizes, extent]
  refine sum_le_of_subperm (hBlocks.subperm fun b hb => ?_) _
  obtain ⟨l, hl, hb⟩ := List.mem_filterMap.mp hb
  simp only [List.mem_filter, decide_eq_true_eq]
  rw [hp.label_eq hb]
  exact ⟨List.mem_of_getElem? hb, hWithin l hl⟩

theorem extent_mono (hMore : roots ⊆ more) : p.extent roots ≤ p.extent more := by
  rw [extent, extent]
  refine sum_le_of_subperm (List.Sublist.subperm (List.monotone_filter_right _ fun b hb => ?_)) _
  simp only [decide_eq_true_eq] at hb ⊢
  exact hb.mono hMore

end BlockMachine.Program
