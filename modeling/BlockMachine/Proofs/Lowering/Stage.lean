import BlockMachine.Lowering.Stage
import BlockMachine.Proofs.Lowering.Script

/-!
# What holds at every stage
The slots that were given out belong to one operand each, or are spared, and the constants of the
block being filled are those of its literals. A step keeps this up and takes no slot back. Every
function of lowering goes by steps, whether it succeeds or is refused, so this holds of every draft
that a lowering comes through.
-/

namespace BlockMachine
set_option autoImplicit false

variable {g : Graph} {d d' : Draft} {spare : List Slot}

namespace Draft

/-- A draft with the given spared slots, none of which went to two uses. -/
structure Tidy (g : Graph) (d : Draft) (spare : List Slot) : Prop where
  keys : (d.slotOf.map Prod.fst).Nodup
  labels : d.registered.Nodup
  allotted : d.Allotted spare
  coherent : d.Coherent
  constants : ∃ us, ∀ pl, d.Agrees pl → d.current.constants = g.constants pl.slot us

namespace Tidy

theorem empty (g : Graph) : Tidy g {} [] where
  keys := List.nodup_nil
  labels := List.nodup_nil
  allotted := .nil
  coherent _ hc := (List.not_mem_nil hc).elim
  constants := ⟨[], fun _ _ => rfl⟩

theorem advance {uses : List OperandId} {refs : List BlockId} {more : List Slot} {is : List Instr}
    {lines : List (Option Nat)} (ht : Tidy g d spare)
    (h : Advance g d d' uses refs more is lines) : Tidy g d' (spare ++ more) where
  keys := h.keys ▸ nodup_foldl_enlist ht.keys uses
  labels := h.registered ▸ nodup_foldl_enlist ht.labels refs
  allotted := h.allotted spare ht.allotted
  coherent := h.coherent ht.coherent
  constants := by
    obtain ⟨us, hConstants⟩ := ht.constants
    exact ⟨us ++ uses, fun pl hAgrees =>
      h.constants pl us hAgrees (hConstants pl (h.agrees hAgrees))⟩

theorem constant_of_use {uses : List OperandId} {refs : List BlockId} {more : List Slot}
    {is : List Instr} {lines : List (Option Nat)} (ht : Tidy g d spare)
    (h : Advance g d d' uses refs more is lines) {pl : Placement} (hAgrees : d'.Agrees pl)
    {o : OperandId} {v : Value} (ho : o ∈ uses) (hv : g.literal? o = some v) :
    ⟨o, pl.slot o, v⟩ ∈ d'.current.constants := by
  obtain ⟨us, hConstants⟩ := ht.constants
  rw [h.constants pl us hAgrees (hConstants pl (h.agrees hAgrees)), Graph.mem_constants]
  exact ⟨List.mem_append_right _ ho, rfl, hv⟩

theorem agrees_supply (ht : Tidy g d spare) :
    d.Agrees (d.supply spare d.registered).toPlacement :=
  Draft.agrees_supply ht.keys ht.labels List.prefix_rfl

theorem lookup_of_agrees (ht : Tidy g d spare) {pl : Placement} (hAgrees : d.Agrees pl)
    {o : OperandId} (ho : o ∈ d.slotOf.map Prod.fst) : d.slotOf.lookup o = some (pl.slot o) := by
  obtain ⟨e, he, rfl⟩ := List.mem_map.mp ho
  rw [hAgrees.slot e he]
  exact lookup_of_mem ht.keys he

theorem eq_of_lookup (ht : Tidy g d spare) {o o' : OperandId} {s : Slot}
    (ho : d.slotOf.lookup o = some s) (ho' : d.slotOf.lookup o' = some s) : o = o' :=
  Sum.inl.inj (given_inj (x := .inl o) (y := .inl o') ht.allotted ho ho')

theorem not_spared (ht : Tidy g d spare) {o : OperandId} {s : Slot}
    (ho : d.slotOf.lookup o = some s) : s ∉ spare := by
  intro hs
  obtain ⟨k, hk⟩ := List.mem_iff_getElem?.mp hs
  exact nomatch given_inj (x := .inl o) (y := .inr k) ht.allotted ho hk

theorem nodup_spare (ht : Tidy g d spare) : spare.Nodup := by
  have hAll := ht.allotted.nodup_iff.mpr List.nodup_range
  exact (List.nodup_append.mp hAll).2.1

theorem lookup_of_extends (ht : Tidy g d' spare) (hSlots : d.slotOf <+: d'.slotOf) {o : OperandId}
    {s : Slot} (h : d.slotOf.lookup o = some s) : d'.slotOf.lookup o = some s :=
  lookup_of_mem ht.keys (hSlots.subset (mem_of_lookup h))

end Tidy

end Draft

namespace Lowering

open Draft

theorem Step.tidy (h : Step g d d') (ht : Tidy g d spare) :
    ∃ more, Tidy g d' (spare ++ more) ∧ d.slotOf <+: d'.slotOf := by
  cases h with
  | label h =>
    obtain ⟨-, hAdvance⟩ := labelFor_ok h
    exact ⟨[], ht.advance hAdvance, hAdvance.slotOf⟩
  | start h =>
    cases h
    refine ⟨[], ?_, List.prefix_rfl⟩
    rw [List.append_nil]
    exact { ht with
      coherent := fun _ hc => (List.not_mem_nil hc).elim
      constants := ⟨[], fun _ _ => rfl⟩ }
  | operand h =>
    obtain ⟨-, hAdvance⟩ := lowerOperand_ok ht.coherent h
    exact ⟨[], ht.advance hAdvance, hAdvance.slotOf⟩
  | spare h =>
    have hAdvance := freshSlot_ok (g := g) h
    exact ⟨_, ht.advance hAdvance, hAdvance.slotOf⟩
  | emit h =>
    have hAdvance := emit_ok (g := g) h
    exact ⟨[], ht.advance hAdvance, hAdvance.slotOf⟩
  | finish h | report h =>
    cases h
    refine ⟨[], ?_, List.prefix_rfl⟩
    rw [List.append_nil]
    obtain ⟨us, hConstants⟩ := ht.constants
    exact { ht with
      constants := ⟨us, fun pl hAgrees => hConstants pl ⟨hAgrees.slot, hAgrees.label⟩⟩ }

theorem Later.tidy (h : Later g d d') (ht : Tidy g d spare) :
    ∃ more, Tidy g d' (spare ++ more) ∧ d.slotOf <+: d'.slotOf := by
  induction h with
  | refl => exact ⟨[], by rwa [List.append_nil], List.prefix_rfl⟩
  | tail _ hStep ih =>
    obtain ⟨more, hTidy, hSlots⟩ := ih
    obtain ⟨last, hTidy, hLast⟩ := hStep.tidy hTidy
    exact ⟨more ++ last, by rwa [← List.append_assoc], hSlots.trans hLast⟩

theorem Reached.exists_tidy (h : Reached g d) : ∃ spare, Tidy g d spare := by
  obtain ⟨spare, hTidy, -⟩ := Later.tidy h (Tidy.empty g)
  exact ⟨spare, hTidy⟩

/-- Whatever the computation comes to, it leaves a later draft. -/
def BySteps (g : Graph) {α : Type} (x : Lowering α) : Prop :=
  ∀ d d', (∃ a, x d = .ok a d') ∨ (∃ r, x d = .error r d') → Later g d d'

section BySteps

variable {α β : Type} {x : Lowering α} {f : α → Lowering β}

theorem BySteps.pure (a : α) : BySteps g (Pure.pure a : Lowering α) := by
  rintro d d' (⟨b, h⟩ | ⟨r, h⟩) <;> cases h
  exact .refl

theorem BySteps.throw (r : Refusal) : BySteps g (throw r : Lowering α) := by
  rintro d d' (⟨b, h⟩ | ⟨r', h⟩) <;> cases h
  exact .refl

theorem BySteps.bind (hx : BySteps g x) (hf : ∀ a, BySteps g (f a)) : BySteps g (x >>= f) := by
  rintro d d' (⟨b, h⟩ | ⟨r, h⟩)
  · obtain ⟨a, d₁, hFirst, hRest⟩ := Outcome.bind_eq_ok_iff.mp h
    exact (hx d d₁ (.inl ⟨a, hFirst⟩)).trans (hf a d₁ d' (.inl ⟨b, hRest⟩))
  · rcases Outcome.bind_eq_error_iff.mp h with hFirst | ⟨a, d₁, hFirst, hRest⟩
    · exact hx d d' (.inr ⟨r, hFirst⟩)
    · exact (hx d d₁ (.inl ⟨a, hFirst⟩)).trans (hf a d₁ d' (.inr ⟨r, hRest⟩))

theorem BySteps.adapt (hx : BySteps g x) (pass : Refusal → Refusal) :
    BySteps g (EStateM.adaptExcept pass x) := by
  rintro d d' (⟨a, h⟩ | ⟨r, h⟩)
  · exact hx d d' (.inl ⟨a, Outcome.adaptExcept_eq_ok_iff.mp h⟩)
  · cases hResult : x d with
    | ok a d₁ =>
      rw [Outcome.adaptExcept_of_ok hResult] at h
      cases h
    | error r' d₁ =>
      rw [Outcome.adaptExcept_of_error hResult] at h
      cases h
      exact hx d d' (.inr ⟨r', hResult⟩)

theorem BySteps.mapM (l : List α) (hf : ∀ a, BySteps g (f a)) : BySteps g (l.mapM f) := by
  induction l with
  | nil =>
    rw [List.mapM_nil]
    exact .pure []
  | cons a l ih =>
    rw [List.mapM_cons]
    exact (hf a).bind fun b => ih.bind fun bs => .pure (b :: bs)

theorem BySteps.of_ok (h : ∀ d, ∃ a d', x d = .ok a d' ∧ Step g d d') : BySteps g x := by
  intro d d' hEnd
  obtain ⟨a, d₁, hOk, hStep⟩ := h d
  rcases hEnd with ⟨b, hEnd⟩ | ⟨r, hEnd⟩ <;> cases hOk.symm.trans hEnd
  exact .single hStep

end BySteps

theorem lowerOperand_bySteps (o : OperandId) : BySteps g (lowerOperand g o) := by
  rintro d d' (⟨s, h⟩ | ⟨r, h⟩)
  · exact .single (.operand h)
  · rw [lowerOperand_error h]
    exact .refl

theorem labelFor_bySteps (b : BlockId) : BySteps g (labelFor g b) := by
  rintro d d' (⟨l, h⟩ | ⟨r, h⟩)
  · exact .single (.label h)
  · rw [labelFor_error h]
    exact .refl

theorem freshSlot_bySteps : BySteps g freshSlot := .of_ok fun _ => ⟨_, _, rfl, .spare rfl⟩

theorem emit_bySteps (i : Instr) (line : Option Nat) : BySteps g (emit i line) :=
  .of_ok fun _ => ⟨_, _, rfl, .emit rfl⟩

theorem lowerParts_bySteps (line : Option Nat) (joined : Slot) (parts : List OperandId) :
    BySteps g (lowerParts g line joined parts) := by
  induction parts generalizing joined with
  | nil => exact .pure joined
  | cons part parts ih =>
    exact (lowerOperand_bySteps part).bind fun right => freshSlot_bySteps.bind fun next =>
      (emit_bySteps _ line).bind fun _ => ih next

theorem lowerConcatList_bySteps (line : Option Nat) (parts : List OperandId) (result : OperandId) :
    BySteps g (lowerConcatList g line parts result) := by
  cases parts with
  | nil => exact .throw _
  | cons first rest =>
    exact (lowerOperand_bySteps first).bind fun joined => (lowerParts_bySteps line joined rest).bind
      fun last => (lowerOperand_bySteps result).bind fun slot => emit_bySteps _ line

theorem lowerNode_bySteps (n : Node) : BySteps g (lowerNode g n) := by
  obtain ⟨action, line⟩ := n
  cases action with
  | binary op left right result =>
    rw [lowerNode]
    dsimp only
    cases op.operator? with
    | none => exact .throw _
    | some operator =>
      exact (lowerOperand_bySteps result).bind fun _ => (lowerOperand_bySteps left).bind fun _ =>
        (lowerOperand_bySteps right).bind fun _ => emit_bySteps _ line
  | assign var expr result =>
    exact (lowerOperand_bySteps result).bind fun _ => (lowerOperand_bySteps var).bind fun _ =>
      (lowerOperand_bySteps expr).bind fun _ => emit_bySteps _ line
  | concatList parts result => exact lowerConcatList_bySteps line parts result
  | constFetch name qualified result =>
    refine (lowerOperand_bySteps result).bind fun _ => (lowerOperand_bySteps name).bind fun _ => ?_
    cases qualified with
    | none => exact (BySteps.pure none).bind fun _ => emit_bySteps _ line
    | some o =>
      rw [Option.mapM_some, map_eq_pure_bind]
      exact ((lowerOperand_bySteps o).bind fun s => .pure (some s)).bind
        fun _ => emit_bySteps _ line
  | jump target => exact (labelFor_bySteps target).bind fun _ => emit_bySteps _ line
  | branch cond ifTrue ifFalse =>
    exact (lowerOperand_bySteps cond).bind fun _ => (labelFor_bySteps ifTrue).bind fun _ =>
      (labelFor_bySteps ifFalse).bind fun _ => emit_bySteps _ line
  | echo expr => exact (lowerOperand_bySteps expr).bind fun _ => emit_bySteps _ line
  | call | declare | ret => exact .throw _

theorem lowerNodes_bySteps (nodes : List Node) : BySteps g (lowerNodes g nodes) := by
  induction nodes with
  | nil => exact .pure ()
  | cons n nodes ih => exact ((lowerNode_bySteps n).adapt _).bind fun _ => ih

theorem lowerBlock_bySteps (label : Label) (origin : BlockId) :
    BySteps g (lowerBlock g label origin) := by
  have hStart : BySteps g (beginBlock label origin) := .of_ok fun _ => ⟨_, _, rfl, .start rfl⟩
  have hFinish : BySteps g finishBlock := .of_ok fun _ => ⟨_, _, rfl, .finish rfl⟩
  refine hStart.bind fun _ => ?_
  cases g.block? origin with
  | none => exact .throw _
  | some nodes => exact (lowerNodes_bySteps nodes).bind fun _ => hFinish

theorem get_bySteps : BySteps g (get : Lowering Draft) := by
  rintro d d' (⟨a, h⟩ | ⟨r, h⟩) <;> cases h
  exact .refl

theorem lowerPending_bySteps (n : Nat) : BySteps g (lowerPending g n) := by
  induction n with
  | zero => exact .pure ()
  | succ n ih =>
    refine get_bySteps.bind fun d => ?_
    cases d.registered[d.finished.length]? with
    | none => exact .pure ()
    | some origin => exact (lowerBlock_bySteps _ origin).bind fun _ => ih

theorem lowerRoot_bySteps (root : BlockId) : BySteps g (lowerRoot g root) :=
  (labelFor_bySteps root).bind fun label => (lowerPending_bySteps _).bind fun _ => .pure label

/-- A whole lowering, refused or not, comes through reached drafts only. -/
theorem lowerRoots_bySteps (roots : List BlockId) : BySteps g (lowerRoots g roots) := by
  refine (BySteps.mapM roots lowerRoot_bySteps).bind fun labels => ?_
  cases labels with
  | nil => exact .throw _
  | cons entry labels =>
    have hReport (e : Event) : BySteps g (report e) := .of_ok fun _ => ⟨_, _, rfl, .report rfl⟩
    exact get_bySteps.bind fun d => (hReport _).bind fun _ => .pure _

end Lowering

end BlockMachine
