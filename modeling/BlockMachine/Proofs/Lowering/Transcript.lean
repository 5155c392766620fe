import BlockMachine.Lowering.Transcript
import BlockMachine.Proofs.Lowering.Termination
import BlockMachine.Proofs.Lowering.WellFormed

/-!
# Lowering transcribes the reachable graph
The program of a sound layout has one block for each block that can be reached, made of its nodes
in their order. Operands that no block uses have no slot in a layout; they are given slots beyond
the scope, so that no two operands of the graph share a slot.
-/

namespace BlockMachine
set_option autoImplicit false

section Congruence

variable {g : Graph} {pl pl' : Placement}

theorem Action.code_congr {a : Action} (hSlot : ∀ o ∈ a.operands, pl.slot o = pl'.slot o)
    (hLabel : pl.label = pl'.label) (spare : List Slot) : a.code pl spare = a.code pl' spare := by
  cases a with
  | binary op left right result =>
    simp only [operands, List.forall_mem_cons] at hSlot
    simp [code, hSlot.1, hSlot.2.1, hSlot.2.2.1]
  | assign var expr result =>
    simp only [operands, List.forall_mem_cons] at hSlot
    simp [code, hSlot.1, hSlot.2.1, hSlot.2.2.1]
  | concatList parts result =>
    cases parts with
    | nil => rfl
    | cons first rest =>
      simp only [operands, List.cons_append, List.forall_mem_cons, List.forall_mem_append] at hSlot
      obtain ⟨hFirst, hRest, hResult, -⟩ := hSlot
      rw [code, code, hFirst, hResult, List.map_congr_left hRest]
  | constFetch name qualified result =>
    simp only [operands, List.forall_mem_append, List.forall_mem_cons] at hSlot
    cases qualified <;> simp_all [code]
  | jump target => rw [code, code, hLabel]
  | branch cond ifTrue ifFalse =>
    simp only [operands, List.forall_mem_cons] at hSlot
    rw [code, code, hLabel, hSlot.1]
  | echo expr =>
    simp only [operands, List.forall_mem_cons] at hSlot
    rw [code, code, hSlot.1]
  | call | declare | ret => rfl

theorem Node.codes_congr {nodes : List Node} (hSlot : ∀ o ∈ uses nodes, pl.slot o = pl'.slot o)
    (hLabel : pl.label = pl'.label) (spares : List (List Slot)) :
    codes pl nodes spares = codes pl' nodes spares := by
  induction nodes generalizing spares with
  | nil => rw [codes_nil, codes_nil]
  | cons node nodes ih =>
    cases spares with
    | nil => rfl
    | cons spare spares =>
      simp only [uses, List.flatMap_cons, List.forall_mem_append] at hSlot
      rw [codes, codes, Action.code_congr hSlot.1 hLabel, ih hSlot.2]

theorem Graph.render_congr {origin : BlockId}
    (hSlot : ∀ o ∈ Node.uses (g.nodes origin), pl.slot o = pl'.slot o)
    (hLabel : pl.label = pl'.label) (scopeSize : Nat) (spares : List (List Slot)) :
    g.render pl scopeSize origin spares = g.render pl' scopeSize origin spares := by
  have hSlots : g.slotTable pl.slot (Node.uses (g.nodes origin)) =
      g.slotTable pl'.slot (Node.uses (g.nodes origin)) := by
    rw [slotTable, slotTable]
    congr 1
    apply List.map_congr_left
    intro o ho
    rw [hSlot o (List.mem_filter.mp ho).1]
  have hConstants : g.constants pl.slot (Node.uses (g.nodes origin)) =
      g.constants pl'.slot (Node.uses (g.nodes origin)) := by
    apply List.filterMap_congr
    intro o ho
    rw [mem_foldl_enlist] at ho
    rw [hSlot o (ho.resolve_left List.not_mem_nil)]
  rw [render, render, hLabel, Node.codes_congr hSlot hLabel, hSlots, hConstants]

end Congruence

namespace Layout

variable {l : Layout} {g : Graph} {roots : List BlockId}

/-- The layout with a slot beyond the scope for every operand that no block uses. -/
def spread (l : Layout) (g : Graph) : Layout :=
  { l with slot := fun o => if o ∈ g.operandsOf l.origins then l.slot o else l.slotCount + o.val }

theorem spread_slot {o : OperandId} (ho : o ∈ g.operandsOf l.origins) :
    (l.spread g).slot o = l.slot o := if_pos ho

theorem spread_slot_of_unused {o : OperandId} (ho : o ∉ g.operandsOf l.origins) :
    (l.spread g).slot o = l.slotCount + o.val := if_neg ho

theorem zipWith_congr {α β γ : Type} {f f' : α → β → γ} {xs : List α} {ys : List β}
    (h : ∀ x ∈ xs, ∀ y, f x y = f' x y) : xs.zipWith f ys = xs.zipWith f' ys := by
  induction xs generalizing ys with
  | nil => rfl
  | cons x xs ih =>
    cases ys with
    | nil => rfl
    | cons y ys =>
      obtain ⟨hHead, hTail⟩ := List.forall_mem_cons.mp h
      rw [List.zipWith_cons_cons, List.zipWith_cons_cons, hHead y, ih hTail]

theorem program_spread (l : Layout) (g : Graph) : (l.spread g).program g = l.program g := by
  have hBlocks : l.origins.zipWith (g.render (l.spread g).toPlacement l.slotCount) l.spares =
      l.origins.zipWith (g.render l.toPlacement l.slotCount) l.spares := by
    apply zipWith_congr
    intro origin hOrigin spares
    apply Graph.render_congr
    · intro o ho
      exact spread_slot (Graph.mem_operandsOf.mpr ⟨origin, hOrigin, ho⟩)
    · rfl
  exact congrArg (fun blocks => Program.mk blocks ⟨0⟩ l.slotCount) hBlocks

namespace Sound

theorem spread (h : l.Sound g roots) : (l.spread g).Sound g roots where
  nodup := h.nodup
  label_eq := h.label_eq
  head := h.head
  mem_of_root := h.mem_of_root
  reachable := h.reachable
  covers := h.covers
  joints := h.joints
  slots := by
    have hSlots : (g.operandsOf l.origins).map (l.spread g).slot =
        (g.operandsOf l.origins).map l.slot := List.map_congr_left fun o ho => spread_slot ho
    have hPerm := h.slots
    rw [← hSlots] at hPerm
    exact hPerm

theorem slot_ne_beyond (h : l.Sound g roots) {o : OperandId} (ho : o ∈ g.operandsOf l.origins)
    (n : Nat) : l.slot o ≠ l.slotCount + n := by
  intro hEq
  have hLt := h.slot_lt ho
  rw [hEq] at hLt
  exact Nat.not_lt.mpr (Nat.le_add_right l.slotCount n) hLt

theorem spread_injective (h : l.Sound g roots) : Function.Injective (l.spread g).slot := by
  intro o o' hEq
  by_cases ho : o ∈ g.operandsOf l.origins
  · by_cases ho' : o' ∈ g.operandsOf l.origins
    · rw [spread_slot ho, spread_slot ho'] at hEq
      exact h.slot_inj ho ho' hEq
    · rw [spread_slot ho, spread_slot_of_unused ho'] at hEq
      exact absurd hEq (h.slot_ne_beyond ho o'.val)
  · by_cases ho' : o' ∈ g.operandsOf l.origins
    · rw [spread_slot_of_unused ho, spread_slot ho'] at hEq
      exact absurd hEq.symm (h.slot_ne_beyond ho' o.val)
    · rw [spread_slot_of_unused ho, spread_slot_of_unused ho'] at hEq
      exact congrArg OperandId.mk (Nat.add_left_cancel hEq)

theorem spread_ne_spare (h : l.Sound g roots) (o : OperandId) :
    (l.spread g).slot o ∉ l.spares.flatten.flatten := by
  intro hSpare
  by_cases ho : o ∈ g.operandsOf l.origins
  · rw [spread_slot ho] at hSpare
    exact h.slot_ne_spare ho hSpare rfl
  · have hLt := h.spare_lt hSpare
    rw [spread_slot_of_unused ho] at hLt
    exact Nat.not_lt.mpr (Nat.le_add_right l.slotCount o.val) hLt

end Sound

end Layout

section Spelling

variable {pl : Placement} {g : Graph} {nodes : List Node} {spares : List (List Slot)}

theorem Node.codes_eq_flatten (pl : Placement) (nodes : List Node) (spares : List (List Slot)) :
    codes pl nodes spares =
      (nodes.zipWith (fun n spare => n.action.code pl spare) spares).flatten := by
  induction nodes generalizing spares with
  | nil => rw [codes_nil, List.zipWith_nil_left, List.flatten_nil]
  | cons node nodes ih =>
    cases spares with
    | nil => rfl
    | cons spare spares => rw [codes, ih, List.zipWith_cons_cons, List.flatten_cons]

theorem Node.lines_eq_flatten (hNodes : ∀ n ∈ nodes, n.action.Lowerable g)
    (hSpares : spares.map List.length = nodes.map (·.action.joints)) :
    lines nodes =
      (nodes.zipWith (fun n spare => (n.action.code pl spare).map fun _ => n.line) spares).flatten := by
  induction nodes generalizing spares with
  | nil => rw [List.zipWith_nil_left, List.flatten_nil, lines, List.flatMap_nil]
  | cons node nodes ih =>
    cases spares with
    | nil => cases hSpares
    | cons spare spares =>
      obtain ⟨hHead, hTail⟩ := List.forall_mem_cons.mp hNodes
      obtain ⟨hJoints, hSpares⟩ := List.cons.inj hSpares
      have hRest := ih hTail hSpares
      rw [lines] at hRest
      rw [lines, List.flatMap_cons, hRest, List.zipWith_cons_cons, List.flatten_cons,
        List.map_const', Action.length_code hHead pl hJoints]

theorem Action.targets_joinCode (result joined : Slot) (parts spare : List Slot) :
    (joinCode result joined parts spare).flatMap Instr.targets = [] := by
  induction parts generalizing joined spare with
  | nil => rfl
  | cons part parts ih =>
    cases spare with
    | nil => rfl
    | cons next spare =>
      rw [joinCode, List.flatMap_cons, ih]
      rfl

theorem Action.targets_code (a : Action) (pl : Placement) (spare : List Slot) :
    (a.code pl spare).flatMap Instr.targets = a.targets.map pl.label := by
  cases a with
  | binary op left right result => cases h : op.operator? <;> simp [code, targets, Instr.targets, h]
  | concatList parts result =>
    cases parts with
    | nil => rfl
    | cons first rest => exact targets_joinCode _ _ _ _
  | assign | constFetch | jump | branch | echo | call | declare | ret => rfl

end Spelling

/-- If no two blocks are made from the same graph block, any of them is the first one found. -/
theorem Program.blockFor?_eq_some_iff {p : Program} (h : (p.blocks.map CodeBlock.origin).Nodup)
    {o : BlockId} {b : CodeBlock} : p.blockFor? o = some b ↔ b ∈ p.blocks ∧ b.origin = o := by
  constructor
  · intro hFind
    exact ⟨List.mem_of_find?_eq_some hFind, by simpa using List.find?_some hFind⟩
  · rintro ⟨hb, rfl⟩
    cases hFind : p.blockFor? b.origin with
    | none =>
      have hNone := List.find?_eq_none.mp hFind b hb
      simp at hNone
    | some c =>
      have hc := List.mem_of_find?_eq_some hFind
      have hOrigin : c.origin = b.origin := by simpa using List.find?_some hFind
      rw [List.inj_on_of_nodup_map h hc hb hOrigin]

theorem forall₂_zipWith {α β γ : Type} {R : γ → β → Prop} {f : α → β → γ} {xs : List α}
    {ys : List β} (hLength : xs.length = ys.length) (h : ∀ e ∈ xs.zip ys, R (f e.1 e.2) e.2) :
    List.Forall₂ R (xs.zipWith f ys) ys := by
  induction xs generalizing ys with
  | nil =>
    rw [List.eq_nil_of_length_eq_zero hLength.symm]
    exact .nil
  | cons x xs ih =>
    cases ys with
    | nil => cases hLength
    | cons y ys =>
      rw [List.zip_cons_cons, List.forall_mem_cons] at h
      exact .cons h.1 (ih (Nat.succ.inj hLength) h.2)

namespace Layout.Sound

variable {l : Layout} {g : Graph} {roots : List BlockId}

theorem render_spells (h : l.Sound g roots) {origin : BlockId} (hOrigin : origin ∈ l.origins)
    {spares : List (List Slot)}
    (hJoints : spares.map List.length = (g.nodes origin).map (·.action.joints)) :
    (g.render l.toPlacement l.slotCount origin spares).Spells l.toPlacement (g.nodes origin)
      spares where
  joints := hJoints
  instrs := Node.codes_eq_flatten _ _ _
  lines := Node.lines_eq_flatten (h.covers origin hOrigin).lowerable hJoints

theorem map_origin (h : l.Sound g roots) :
    (l.program g).blocks.map CodeBlock.origin = l.origins := by
  have hFirst := List.map_fst_zip (Nat.le_of_eq (Graph.length_eq_of_joints h.joints))
  rw [List.zip_eq_zipWith, List.map_zipWith] at hFirst
  rw [program, List.map_zipWith]
  exact hFirst

theorem reachable_iff (h : l.Sound g roots) {b : BlockId} :
    b ∈ l.origins ↔ g.Reachable roots b := by
  constructor
  · exact h.reachable b
  · intro hb
    induction hb with
    | root hRoot => exact h.mem_of_root _ hRoot
    | step _ hNodes hNode hTarget ih =>
      apply (h.covers _ ih).targets
      rw [Graph.nodes_eq hNodes]
      exact List.mem_flatMap.mpr ⟨_, hNode, hTarget⟩

theorem spelledFrom (h : l.Sound g roots) (hApart : ∀ o, l.slot o ∉ l.spares.flatten.flatten) :
    (l.program g).SpelledFrom g l.toPlacement l.spares where
  blocks := by
    apply forall₂_zipWith (Graph.length_eq_of_joints h.joints)
    intro e he
    obtain ⟨i, hi⟩ := List.mem_iff_getElem?.mp he
    obtain ⟨hOrigin, hSpares⟩ := List.getElem?_zip_eq_some.mp hi
    have hMem := List.mem_of_getElem? hOrigin
    have hCovers := h.covers e.1 hMem
    obtain ⟨nodes, hNodes⟩ := Option.isSome_iff_exists.mp hCovers.exist
    have hJoints := congrArg (·[i]?) h.joints
    simp only [List.getElem?_map, hOrigin, hSpares, Option.map_some, Option.some.injEq] at hJoints
    have hSpells := h.render_spells hMem hJoints
    rw [Graph.nodes_eq hNodes] at hSpells
    exact ⟨nodes, hNodes, Graph.nodes_eq hNodes ▸ hCovers.lowerable, hSpells⟩
  fresh := (List.nodup_append.mp h.nodup_slots).2.1
  apart := hApart

theorem transcribes (h : l.Sound g roots) : (l.program g).Transcribes g roots l.toPlacement where
  nodup := h.map_origin ▸ h.nodup
  reachable o := by rw [h.map_origin, h.reachable_iff]
  label_eq i b hb := by
    obtain ⟨origin, spares, hOrigin, -, -, rfl⟩ := h.block_eq hb
    exact h.label_eq i origin hOrigin
  found o b := Program.blockFor?_eq_some_iff (h.map_origin ▸ h.nodup)
  leads b hb n hn spare := by
    rw [Action.targets_code, List.forall₂_map_left_iff, List.forall₂_same]
    intro t ht
    obtain ⟨origin, hOrigin, spares, rfl⟩ := h.exists_render hb
    have hCovers := h.covers origin hOrigin
    have hTarget : t ∈ l.origins := hCovers.targets t (List.mem_flatMap.mpr ⟨n, hn, ht⟩)
    obtain ⟨others, -, -, hBlock⟩ := h.block?_label hTarget
    exact ⟨_, hBlock, rfl⟩

end Layout.Sound

namespace Graph

variable {g : Graph} {roots : List BlockId} {p : Program}

/-- What lowers is the program of a sound layout in which no two operands of the graph share a slot
and none has a spare one. -/
theorem exists_spread_layout (h : g.lower roots = .ok p) :
    ∃ l : Layout, l.Sound g roots ∧ p = l.program g ∧ Function.Injective l.slot ∧
      ∀ o, l.slot o ∉ l.spares.flatten.flatten := by
  obtain ⟨l, hSound, rfl⟩ := exists_layout_of_lower h
  exact ⟨l.spread g, hSound.spread, (l.program_spread g).symm, hSound.spread_injective,
    hSound.spread_ne_spare⟩

/-- Lowering always comes to an end. If it succeeds, the program transcribes what can be reached
from the roots: every block once, made of all its nodes in their order, and with jumps that lead
where the nodes say. -/
theorem lower_transcribes (g : Graph) (roots : List BlockId) :
    (∃ result, Lowering.WorksOff g roots {} result ∧
      (∀ other, Lowering.WorksOff g roots {} other → other = result) ∧
      g.lower roots = Lowering.outcome roots result) ∧
    ∀ p, g.lower roots = .ok p →
      ∃ pl spares, p.SpelledFrom g pl spares ∧ p.Transcribes g roots pl := by
  constructor
  · obtain ⟨result, hWorksOff, hLower⟩ := exists_worksOff g roots
    exact ⟨result, hWorksOff, fun other hOther => hOther.unique hWorksOff, hLower⟩
  · intro p hLower
    obtain ⟨l, hSound, rfl, -, hApart⟩ := exists_spread_layout hLower
    exact ⟨l.toPlacement, l.spares, hSound.spelledFrom hApart, hSound.transcribes⟩

/-- A block that goes back to itself, one that goes back to the first, which only a jump behind
another one leads to, and one that nothing leads to. A root is given twice. -/
def maze : Graph where
  operands := [.temporary none, .literal (.string "a"), .temporary (some "x")]
  blocks := [
    [⟨.concatList [⟨1⟩, ⟨0⟩, ⟨1⟩] ⟨2⟩, some 5⟩, ⟨.branch ⟨2⟩ ⟨1⟩ ⟨0⟩, none⟩, ⟨.jump ⟨3⟩, some 6⟩],
    [⟨.jump ⟨1⟩, none⟩],
    [⟨.echo ⟨0⟩, none⟩],
    [⟨.echo ⟨2⟩, some 9⟩, ⟨.jump ⟨0⟩, none⟩]]

def mazeProgram : Program where
  blocks := [
    { label := ⟨0⟩, origin := ⟨0⟩
      instrs := [.binary .concat 2 0 1, .binary .concat 3 2 0, .assign 4 4 3, .branch 4 ⟨1⟩ ⟨0⟩,
        .jump ⟨2⟩]
      lines := [some 5, some 5, some 5, none, some 6]
      slots := .ofList [(⟨0⟩, 1), (⟨2⟩, 4)], constants := [⟨⟨1⟩, 0, .string [97]⟩], scopeSize := 5 },
    { label := ⟨1⟩, origin := ⟨1⟩, instrs := [.jump ⟨1⟩], lines := [none], scopeSize := 5 },
    { label := ⟨2⟩, origin := ⟨3⟩, instrs := [.echo 4, .jump ⟨0⟩], lines := [some 9, none]
      slots := .ofList [(⟨2⟩, 4)], scopeSize := 5 }]
  entry := ⟨0⟩
  slotCount := 5

theorem lower_transcribes_maze : maze.lower [⟨0⟩, ⟨1⟩, ⟨0⟩] = .ok mazeProgram ∧
    ∃ pl spares, mazeProgram.SpelledFrom maze pl spares ∧
      mazeProgram.Transcribes maze [⟨0⟩, ⟨1⟩, ⟨0⟩] pl := by
  have hLower : maze.lower [⟨0⟩, ⟨1⟩, ⟨0⟩] = .ok mazeProgram := by decide +kernel
  exact ⟨hLower, (lower_transcribes maze [⟨0⟩, ⟨1⟩, ⟨0⟩]).2 mazeProgram hLower⟩

end Graph

end BlockMachine
