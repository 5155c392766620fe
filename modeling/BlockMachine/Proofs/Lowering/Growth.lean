import BlockMachine.Lowering.Draft
import BlockMachine.Proofs.Lowering.Rendering

/-!
# How a draft grows
While a block is filled, a draft only grows. What is added between two drafts is said once: the
operands that were used, the graph blocks that were referred to, the slots that were spared, and the
instructions with their lines.
-/

namespace BlockMachine
set_option autoImplicit false

namespace Draft

/-- The slots below the next free one are those of operands and the spared ones, each once. -/
def Allotted (d : Draft) (spare : List Slot) : Prop :=
  (d.slotOf.map Prod.snd ++ spare).Perm (List.range d.nextSlot)

structure Agrees (d : Draft) (pl : Placement) : Prop where
  slot : ∀ e ∈ d.slotOf, pl.slot e.1 = e.2
  label : ∀ (i : Nat) (b : BlockId), d.registered[i]? = some b → pl.label b = ⟨i⟩

def Coherent (d : Draft) : Prop := ∀ c ∈ d.current.constants, (c.operand, c.slot) ∈ d.slotOf

theorem Agrees.mono {d d' : Draft} {pl : Placement} (h : d'.Agrees pl)
    (hSlots : d.slotOf <+: d'.slotOf) (hLabels : d.registered <+: d'.registered) : d.Agrees pl where
  slot e he := h.slot e (hSlots.subset he)
  label i b hb := h.label i b (getElem?_of_extends hLabels hb)

structure Allots (d d' : Draft) (uses : List OperandId) (spare : List Slot) : Prop where
  keys : d'.slotOf.map Prod.fst = uses.foldl enlist (d.slotOf.map Prod.fst)
  slotOf : d.slotOf <+: d'.slotOf
  allotted : ∀ rest, d.Allotted rest → d'.Allotted (rest ++ spare)

structure Registers (g : Graph) (d d' : Draft) (refs : List BlockId) : Prop where
  registered : d'.registered = refs.foldl enlist d.registered
  exist : (∀ b ∈ d.registered, (g.block? b).isSome = true) →
    ∀ b ∈ d'.registered, (g.block? b).isSome = true

/-- What was used before in the same block is not known here, so constants and slot table are said
relative to it. -/
structure Fills (g : Graph) (d d' : Draft) (uses : List OperandId) (is : List Instr)
    (lines : List (Option Nat)) : Prop where
  finished : d'.finished = d.finished
  label : d'.current.label = d.current.label
  origin : d'.current.origin = d.current.origin
  scopeSize : d'.current.scopeSize = d.current.scopeSize
  instrs : d'.current.instrs = d.current.instrs ++ is
  lines : d'.current.lines = d.current.lines ++ lines
  events : d'.events = d.events ++ is.map (.emitted d.current.label)
  usable : ∀ o ∈ uses, g.usable o = true
  coherent : d.Coherent → d'.Coherent
  constants : ∀ pl us, d'.Agrees pl → d.current.constants = g.constants pl.slot us →
    d'.current.constants = g.constants pl.slot (us ++ uses)
  slots : ∀ pl us, d'.Agrees pl → d.current.slots = g.slotTable pl.slot us →
    d'.current.slots = g.slotTable pl.slot (us ++ uses)

structure Advance (g : Graph) (d d' : Draft) (uses : List OperandId) (refs : List BlockId)
    (spare : List Slot) (is : List Instr) (lines : List (Option Nat)) : Prop extends
    Allots d d' uses spare, Registers g d d' refs, Fills g d d' uses is lines

variable {g : Graph} {d d' d'' : Draft} {uses uses' : List OperandId} {refs refs' : List BlockId}
  {spare spare' : List Slot} {is is' : List Instr} {lines lines' : List (Option Nat)}

theorem Allots.of_slots (hSlots : d'.slotOf = d.slotOf) (hNext : d'.nextSlot = d.nextSlot) :
    Allots d d' [] [] where
  keys := by rw [hSlots, List.foldl_nil]
  slotOf := hSlots ▸ List.prefix_rfl
  allotted rest h := by rwa [List.append_nil, Allotted, hSlots, hNext]

theorem Allots.trans (h : Allots d d' uses spare) (h' : Allots d' d'' uses' spare') :
    Allots d d'' (uses ++ uses') (spare ++ spare') where
  keys := by rw [h'.keys, h.keys, List.foldl_append]
  slotOf := h.slotOf.trans h'.slotOf
  allotted rest hRest := by
    rw [← List.append_assoc]
    exact h'.allotted (rest ++ spare) (h.allotted rest hRest)

theorem Registers.of_registered (h : d'.registered = d.registered) : Registers g d d' [] :=
  ⟨h, fun hExist => h ▸ hExist⟩

theorem Registers.trans (h : Registers g d d' refs) (h' : Registers g d' d'' refs') :
    Registers g d d'' (refs ++ refs') where
  registered := by rw [h'.registered, h.registered, List.foldl_append]
  exist hExist := h'.exist (h.exist hExist)

theorem Registers.labels (h : Registers g d d' refs) : d.registered <+: d'.registered := by
  rw [h.registered]
  exact foldl_enlist_extends d.registered refs

theorem Fills.of_current (hFinished : d'.finished = d.finished) (hCurrent : d'.current = d.current)
    (hEvents : d'.events = d.events) (hSlots : d.slotOf <+: d'.slotOf) :
    Fills g d d' [] [] [] where
  finished := hFinished
  label := by rw [hCurrent]
  origin := by rw [hCurrent]
  scopeSize := by rw [hCurrent]
  instrs := by rw [hCurrent, List.append_nil]
  lines := by rw [hCurrent, List.append_nil]
  events := by rw [hEvents, List.map_nil, List.append_nil]
  usable _ ho := nomatch ho
  coherent hd c hc := hSlots.subset (hd c (hCurrent ▸ hc))
  constants pl us _ h := by rw [hCurrent, h, List.append_nil]
  slots pl us _ h := by rw [hCurrent, h, List.append_nil]

theorem Fills.trans (h : Fills g d d' uses is lines) (h' : Fills g d' d'' uses' is' lines')
    (hSlots : d'.slotOf <+: d''.slotOf) (hLabels : d'.registered <+: d''.registered) :
    Fills g d d'' (uses ++ uses') (is ++ is') (lines ++ lines') where
  finished := h'.finished.trans h.finished
  label := h'.label.trans h.label
  origin := h'.origin.trans h.origin
  scopeSize := h'.scopeSize.trans h.scopeSize
  instrs := by rw [h'.instrs, h.instrs, List.append_assoc]
  lines := by rw [h'.lines, h.lines, List.append_assoc]
  events := by rw [h'.events, h.events, h.label, List.map_append, List.append_assoc]
  usable o ho := (List.mem_append.mp ho).elim (h.usable o) (h'.usable o)
  coherent hd := h'.coherent (h.coherent hd)
  constants pl us hAgrees hd := by
    rw [← List.append_assoc]
    exact h'.constants pl (us ++ uses) hAgrees
      (h.constants pl us (hAgrees.mono hSlots hLabels) hd)
  slots pl us hAgrees hd := by
    rw [← List.append_assoc]
    exact h'.slots pl (us ++ uses) hAgrees (h.slots pl us (hAgrees.mono hSlots hLabels) hd)

theorem Advance.agrees (h : Advance g d d' uses refs spare is lines) {pl : Placement}
    (hAgrees : d'.Agrees pl) : d.Agrees pl := hAgrees.mono h.slotOf h.toRegisters.labels

theorem Advance.refl (g : Graph) (d : Draft) : Advance g d d [] [] [] [] [] where
  toAllots := Allots.of_slots rfl rfl
  toRegisters := Registers.of_registered rfl
  toFills := Fills.of_current rfl rfl rfl List.prefix_rfl

theorem Advance.trans (h : Advance g d d' uses refs spare is lines)
    (h' : Advance g d' d'' uses' refs' spare' is' lines') :
    Advance g d d'' (uses ++ uses') (refs ++ refs') (spare ++ spare') (is ++ is')
      (lines ++ lines') where
  toAllots := h.toAllots.trans h'.toAllots
  toRegisters := h.toRegisters.trans h'.toRegisters
  toFills := h.toFills.trans h'.toFills h'.slotOf h'.toRegisters.labels

end Draft

end BlockMachine
