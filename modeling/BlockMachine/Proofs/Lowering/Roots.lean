import BlockMachine.Lowering.Worklist
import BlockMachine.Machine.Extension
import BlockMachine.Proofs.Lowering.Termination
import BlockMachine.Proofs.Lowering.WellFormed
import BlockMachine.Proofs.Machine.Extension

/-!
# More roots
Roots are worked off one after another, and nothing that is finished is touched again. So the roots
behind the first only add blocks and slots, also when they lead back to the blocks of the first,
and what runs from the first does not notice them.
-/

namespace BlockMachine
set_option autoImplicit false

theorem Draft.Allots.nextSlot_le {d d' : Draft} {uses : List OperandId} {spare rest : List Slot}
    (h : d.Allots d' uses spare) (hd : d.Allotted rest) : d.nextSlot ≤ d'.nextSlot := by
  have hBefore := hd.length_eq
  have hAfter := (h.allotted rest hd).length_eq
  have hSlots := h.slotOf.length_le
  simp only [List.length_append, List.length_map, List.length_range] at hBefore hAfter
  rw [← hBefore, ← hAfter]
  exact Nat.add_le_add hSlots (Nat.le_add_right _ _)

namespace Lowering

open Draft

variable {g : Graph} {roots more : List BlockId} {d d' : Draft}

theorem WorksOff.of_append (h : WorksOff g (roots ++ more) d (.ok () d')) :
    ∃ d₁, WorksOff g roots d (.ok () d₁) ∧ WorksOff g more d₁ (.ok () d') := by
  generalize hAll : roots ++ more = all at h
  generalize hEnd : EStateM.Result.ok () d' = result at h
  induction h generalizing roots with
  | @done d hNone =>
    obtain ⟨rfl, rfl⟩ := List.append_eq_nil_iff.mp hAll
    cases hEnd
    exact ⟨d', .done hNone, .done hNone⟩
  | block hNext hBlock _ ih =>
    obtain ⟨d₁, hFirst, hRest⟩ := ih hAll hEnd
    exact ⟨d₁, .block hNext hBlock hFirst, hRest⟩
  | blockRefused => cases hEnd
  | @root root all d _ _ _ hNone hLabel hRest ih =>
    cases roots with
    | nil =>
      rw [List.nil_append] at hAll
      subst hAll hEnd
      exact ⟨d, .done hNone, .root hNone hLabel hRest⟩
    | cons r roots =>
      obtain ⟨rfl, hRoots⟩ := List.cons.inj hAll
      obtain ⟨d₁, hFirst, hRest⟩ := ih hRoots hEnd
      exact ⟨d₁, .root hNone hLabel hFirst, hRest⟩
  | rootRefused => cases hEnd

/-- What is finished stays as it is, and slots are only added. -/
theorem WorksOff.grows {spare : List Slot} (h : WorksOff g roots d (.ok () d'))
    (hd : d.Allotted spare) :
    d.finished <+: d'.finished ∧ d.nextSlot ≤ d'.nextSlot ∧ ∃ spare', d'.Allotted spare' := by
  generalize hEnd : EStateM.Result.ok () d' = result at h
  induction h generalizing spare with
  | done =>
    cases hEnd
    exact ⟨List.prefix_rfl, Nat.le_refl _, spare, hd⟩
  | @block _ d _ b _ _ hBlock _ ih =>
    obtain ⟨nodes, d₁, -, hLower, hFinish⟩ := lowerBlock_eq_ok hBlock
    cases hFinish
    have hCoherent : Draft.Coherent { d with current := { label := ⟨d.finished.length⟩, origin := b } } :=
      fun _ hc => nomatch hc
    obtain ⟨-, spares, is, -, hAdvance, -⟩ := lowerNodes_ok hCoherent hLower
    obtain ⟨hFinished, hSlots, hLast⟩ := ih (hAdvance.allotted spare hd) hEnd
    rw [hAdvance.finished] at hFinished
    exact ⟨(List.prefix_append _ _).trans hFinished,
      Nat.le_trans (hAdvance.toAllots.nextSlot_le hd) hSlots, hLast⟩
  | blockRefused => cases hEnd
  | root _ hLabel _ ih =>
    obtain ⟨-, hAdvance⟩ := labelFor_ok hLabel
    obtain ⟨hFinished, hSlots, hLast⟩ := ih (hAdvance.allotted spare hd) hEnd
    rw [hAdvance.finished] at hFinished
    exact ⟨hFinished, Nat.le_trans (hAdvance.toAllots.nextSlot_le hd) hSlots, hLast⟩
  | rootRefused => cases hEnd

end Lowering

namespace Graph

open Lowering

variable {g : Graph}

/-- Lowering with more roots behind some extends the program of those. -/
theorem exists_extends {roots more : List BlockId} {p : Program} (hRoots : roots ≠ [])
    (h : g.lower (roots ++ more) = .ok p) : ∃ q, g.lower roots = .ok q ∧ p.Extends q := by
  obtain ⟨result, hWorks, hLower⟩ := g.exists_worksOff (roots ++ more)
  rw [h] at hLower
  cases result with
  | error r d => cases hLower
  | ok u d' =>
    obtain ⟨d, hFirst, hRest⟩ := hWorks.of_append
    obtain ⟨result, hWorks', hLower'⟩ := g.exists_worksOff roots
    cases hWorks'.unique hFirst
    rw [outcome, if_neg (by simp [hRoots])] at hLower
    rw [outcome, if_neg hRoots] at hLower'
    cases hLower
    have hEmpty : Draft.Allotted {} [] := List.Perm.nil
    obtain ⟨-, -, spare, hAllotted⟩ := hFirst.grows hEmpty
    obtain ⟨hFinished, hSlots, -⟩ := hRest.grows hAllotted
    refine ⟨_, hLower', rfl, hSlots, ?_⟩
    rw [List.map_map]
    exact hFinished.map _

theorem scopeSize_of_lower {roots : List BlockId} {p : Program} (h : g.lower roots = .ok p) :
    ∀ b ∈ p.blocks, b.scopeSize = p.slotCount := by
  obtain ⟨l, hSound, rfl⟩ := exists_layout_of_lower h
  intro b hb
  obtain ⟨origin, -, spares, rfl⟩ := hSound.exists_render hb
  rfl

/-- Roots behind the first only append blocks to what the first is lowered to, and add slots. A run
with nothing pending is the same with them as without them. -/
theorem lower_more_roots {r : BlockId} {rs : List BlockId} {p : Program}
    (h : g.lower (r :: rs) = .ok p) :
    ∃ q, g.lower [r] = .ok q ∧ p.Extends q ∧
      ∀ (fuel : Nat) (limits : Limits) (host : Host), host.pending = [] →
        Option.Rel Machine.Report.Agrees (Machine.run fuel q limits host)
          (Machine.run fuel p limits host) := by
  obtain ⟨q, hFirst, hExtends⟩ := exists_extends (List.cons_ne_nil r []) h
  refine ⟨q, hFirst, hExtends, fun fuel limits host hPending => ?_⟩
  have hFrames : ∀ f ∈ host.pending, f.Belongs q := by
    rw [hPending]
    exact fun f hf => nomatch hf
  exact Machine.run_of_extends hExtends (verify_of_lower h) (verify_of_lower hFirst)
    (scopeSize_of_lower hFirst) fuel limits hFrames

/-- The second root comes back to the block of the first, behind a block of its own with a joint. -/
def refrain : Graph where
  operands := [.literal (.string "la"), .literal (.string "di"), .temporary none]
  blocks := [
    [⟨.concatList [⟨1⟩, ⟨0⟩] ⟨2⟩, some 1⟩, ⟨.echo ⟨2⟩, some 1⟩, ⟨.jump ⟨1⟩, none⟩],
    [⟨.echo ⟨0⟩, some 2⟩]]

def refrainProgram : Program where
  blocks := [
    { label := ⟨0⟩, origin := ⟨1⟩, instrs := [.echo 0], lines := [some 2]
      constants := [⟨⟨0⟩, 0, .ofString "la"⟩], scopeSize := 4 },
    { label := ⟨1⟩, origin := ⟨0⟩
      instrs := [.binary .concat 2 1 0, .assign 3 3 2, .echo 3, .jump ⟨0⟩]
      lines := [some 1, some 1, some 1, none], slots := .ofList [(⟨2⟩, 3)]
      constants := [⟨⟨1⟩, 1, .ofString "di"⟩, ⟨⟨0⟩, 0, .ofString "la"⟩], scopeSize := 4 }]
  entry := ⟨0⟩
  slotCount := 4

theorem lower_more_roots_refrain :
    ∃ q, refrain.lower [⟨1⟩] = .ok q ∧ refrainProgram.Extends q ∧
      Option.Rel Machine.Report.Agrees (Machine.run 9 q {} {})
        (Machine.run 9 refrainProgram {} {}) := by
  have hLower : refrain.lower [⟨1⟩, ⟨0⟩] = .ok refrainProgram := by decide +kernel
  obtain ⟨q, hFirst, hExtends, hRun⟩ := lower_more_roots hLower
  exact ⟨q, hFirst, hExtends, hRun 9 {} {} rfl⟩

end Graph

end BlockMachine
