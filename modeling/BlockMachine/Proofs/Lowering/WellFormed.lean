import BlockMachine.Pipeline
import BlockMachine.Proofs.Lowering.Blocks
import BlockMachine.Proofs.Lowering.Layout
import BlockMachine.Proofs.Machine.Safety

/-!
# Lowered programs are well formed
The program of a sound layout passes the verifier: its slots are those of the layout, and its
targets are labels of the layout's blocks.
-/

namespace BlockMachine
set_option autoImplicit false

/-- The instruction keeps to the given slots, and to the labels of the given blocks. -/
def Instr.KeepsTo (pl : Placement) (slots : List Slot) (refs : List BlockId) (i : Instr) : Prop :=
  (∀ s ∈ i.slots, s ∈ slots) ∧ ∀ t ∈ i.targets, ∃ b ∈ refs, t = pl.label b

variable {pl : Placement}

theorem Action.joinCode_keepsTo {result joined : Slot} {refs : List BlockId}
    {slots parts spare : List Slot} (hResult : result ∈ slots) (hJoined : joined ∈ slots)
    (hParts : ∀ s ∈ parts, s ∈ slots) (hSpare : ∀ s ∈ spare, s ∈ slots) :
    ∀ i ∈ joinCode result joined parts spare, i.KeepsTo pl slots refs := by
  have hStore (joined : Slot) (hJoined : joined ∈ slots) :
      ∀ i ∈ [Instr.assign result result joined], i.KeepsTo pl slots refs := by
    intro i hi
    rw [List.mem_singleton.mp hi]
    refine ⟨?_, by simp [Instr.targets]⟩
    simpa [Instr.slots] using ⟨hResult, hJoined⟩
  induction parts generalizing joined spare with
  | nil => exact hStore joined hJoined
  | cons part parts ih =>
    cases spare with
    | nil => exact hStore joined hJoined
    | cons next spare =>
      obtain ⟨hPart, hParts⟩ := List.forall_mem_cons.mp hParts
      obtain ⟨hNext, hSpare⟩ := List.forall_mem_cons.mp hSpare
      intro i hi
      rcases List.mem_cons.mp hi with rfl | hi
      · refine ⟨?_, by simp [Instr.targets]⟩
        simpa [Instr.slots] using ⟨hNext, hJoined, hPart⟩
      · exact ih hNext hParts hSpare i hi

theorem Action.code_keepsTo (a : Action) (spare : List Slot) :
    ∀ i ∈ a.code pl spare, i.KeepsTo pl (a.operands.map pl.slot ++ spare) a.targets := by
  intro i hi
  cases a with
  | binary op left right result =>
    obtain ⟨f, -, rfl⟩ := List.mem_map.mp hi
    exact ⟨by simp [Instr.slots, operands], by simp [Instr.targets]⟩
  | assign var expr result =>
    rw [List.mem_singleton.mp hi]
    exact ⟨by simp [Instr.slots, operands], by simp [Instr.targets]⟩
  | concatList parts result =>
    cases parts with
    | nil => cases hi
    | cons first rest =>
      refine joinCode_keepsTo ?_ ?_ ?_ ?_ i hi
      · simp [operands]
      · simp [operands]
      · intro s hs
        simp only [operands, List.map_append, List.map_cons, List.mem_append, List.mem_cons]
        exact .inl (.inl (.inr hs))
      · exact fun s hs => List.mem_append_right _ hs
  | constFetch name qualified result =>
    rw [List.mem_singleton.mp hi]
    refine ⟨?_, by simp [Instr.targets]⟩
    cases qualified <;> simp [Instr.slots, operands]
  | jump target =>
    rw [List.mem_singleton.mp hi]
    exact ⟨by simp [Instr.slots], by simp [Instr.targets, targets]⟩
  | branch cond ifTrue ifFalse =>
    rw [List.mem_singleton.mp hi]
    exact ⟨by simp [Instr.slots, operands], by simp [Instr.targets, targets]⟩
  | echo expr =>
    rw [List.mem_singleton.mp hi]
    exact ⟨by simp [Instr.slots, operands], by simp [Instr.targets]⟩
  | call | declare | ret => cases hi

theorem Node.mem_codes {nodes : List Node} {spares : List (List Slot)} {i : Instr}
    (hi : i ∈ Node.codes pl nodes spares) :
    ∃ n ∈ nodes, ∃ spare ∈ spares, i ∈ n.action.code pl spare := by
  induction nodes generalizing spares with
  | nil => cases hi
  | cons node nodes ih =>
    cases spares with
    | nil => cases hi
    | cons spare spares =>
      rcases List.mem_append.mp hi with hi | hi
      · exact ⟨node, List.mem_cons_self, spare, List.mem_cons_self, hi⟩
      · obtain ⟨n, hn, spare', hSpare, hi⟩ := ih hi
        exact ⟨n, List.mem_cons_of_mem node hn, spare', List.mem_cons_of_mem spare hSpare, hi⟩

namespace Layout.Sound

variable {l : Layout} {g : Graph} {roots : List BlockId}

theorem label_lt (h : l.Sound g roots) {b : BlockId} (hb : b ∈ l.origins) :
    (l.label b).index < l.origins.length := by
  obtain ⟨i, hi⟩ := List.mem_iff_getElem?.mp hb
  rw [h.label_eq i b hi]
  exact (List.getElem?_eq_some_iff.mp hi).1

theorem render_wellFormed (h : l.Sound g roots) {i : Nat} {origin : BlockId}
    {spares : List (List Slot)} (hOrigin : l.origins[i]? = some origin) (hSpares : spares ∈ l.spares)
    (hJoints : spares.map List.length = (g.nodes origin).map (·.action.joints)) :
    (g.render l.toPlacement l.slotCount origin spares).WellFormed l.origins.length i := by
  have hMem := List.mem_of_getElem? hOrigin
  have hCovers := h.covers origin hMem
  have hSlot (o : OperandId) (ho : o ∈ Node.uses (g.nodes origin)) : l.slot o < l.slotCount :=
    h.slot_lt (Graph.mem_operandsOf.mpr ⟨origin, hMem, ho⟩)
  constructor
  · exact congrArg Label.index (h.label_eq i origin hOrigin)
  · exact (Node.length_codes l.toPlacement hCovers.lowerable hJoints).symm
  · intro c hc
    obtain ⟨ho, hEq, -⟩ := Graph.mem_constants.mp hc
    exact hEq ▸ hSlot c.operand ho
  · intro i hi
    obtain ⟨n, hn, spare, hSpare, hi⟩ := Node.mem_codes hi
    obtain ⟨hSlots, hTargets⟩ := n.action.code_keepsTo spare i hi
    constructor
    · intro s hs
      rcases List.mem_append.mp (hSlots s hs) with hs | hs
      · obtain ⟨o, ho, rfl⟩ := List.mem_map.mp hs
        exact hSlot o (List.mem_flatMap.mpr ⟨n, hn, ho⟩)
      · exact h.spare_lt (List.mem_flatten_of_mem (List.mem_flatten_of_mem hSpares hSpare) hs)
    · intro t ht
      obtain ⟨b, hb, rfl⟩ := hTargets t ht
      exact h.label_lt (hCovers.targets b (List.mem_flatMap.mpr ⟨n, hn, hb⟩))

theorem wellFormed (h : l.Sound g roots) : (l.program g).WellFormed := by
  constructor
  · obtain ⟨r, -, hHead⟩ := h.head
    rw [h.length_blocks]
    exact (List.getElem?_eq_some_iff.mp hHead).1
  · intro i b hb
    obtain ⟨origin, spares, hOrigin, hSpares, hJoints, rfl⟩ := h.block_eq hb
    rw [h.length_blocks]
    exact h.render_wellFormed hOrigin hSpares hJoints

end Layout.Sound

namespace Graph

theorem exists_layout_of_lower {g : Graph} {roots : List BlockId} {p : Program}
    (h : g.lower roots = .ok p) : ∃ l : Layout, l.Sound g roots ∧ p = l.program g := by
  have hLowering : g.lowering roots = (.ok p, (g.lowering roots).2) := Prod.ext h rfl
  obtain ⟨l, hSound, hProgram, -⟩ := exists_layout hLowering
  exact ⟨l, hSound, hProgram⟩

theorem verify_of_lower {g : Graph} {roots : List BlockId} {p : Program}
    (h : g.lower roots = .ok p) : p.verify = .ok () := by
  obtain ⟨l, hSound, rfl⟩ := exists_layout_of_lower h
  exact ((l.program g).verify_eq_ok_iff).mpr hSound.wellFormed

/-- What lowers can be verified: it starts at its first block, and all its blocks share one scope.
So lowering and running in one go neither stops at the verifier nor fails internally. -/
theorem lower_verified (g : Graph) :
    (∀ roots p, g.lower roots = .ok p →
      p.verify = .ok () ∧ p.entry = ⟨0⟩ ∧ ∀ b ∈ p.blocks, b.scopeSize = p.slotCount) ∧
    ∀ (fuel : Nat) (h after : Host) (problem : Problem), h.pending = [] →
      lowerAndRun fuel g h = some (.error problem, after) →
      problem.stage ≠ "verify" ∧ ∀ f, problem = .failed f → f.fault.isInternal = false := by
  constructor
  · intro roots p hLower
    refine ⟨verify_of_lower hLower, ?_⟩
    obtain ⟨l, hSound, rfl⟩ := exists_layout_of_lower hLower
    refine ⟨rfl, fun b hb => ?_⟩
    obtain ⟨i, hi⟩ := List.mem_iff_getElem?.mp hb
    obtain ⟨origin, spares, -, -, -, rfl⟩ := hSound.block_eq hi
    rfl
  · intro fuel h after problem hPending hRun
    rw [lowerAndRun] at hRun
    split at hRun
    · cases hRun
      exact ⟨by simp [Problem.stage], fun f hf => nomatch hf⟩
    · rename_i p hLower
      have hVerify := verify_of_lower hLower
      rw [hVerify] at hRun
      obtain ⟨report, hReport, hResult⟩ := Option.map_eq_some_iff.mp hRun
      have hFrames : ∀ f ∈ h.pending, f.Belongs p := by
        rw [hPending]
        exact fun f hf => nomatch hf
      split at hResult
      · cases hResult
      · rename_i f hFailed
        cases hResult
        refine ⟨by simp [Problem.stage], fun f' hf' => ?_⟩
        cases hf'
        exact Machine.run_not_internal hVerify hFrames hReport hFailed

/-- One root twice, a jump back that is never taken, a block out of reach, and a sum that is stored
in one of the literals it is made from. -/
def tangle : Graph where
  operands := [.literal (.integer 9223372036854775807)]
  blocks := [[⟨.binary .plus ⟨0⟩ ⟨0⟩ ⟨0⟩, some 3⟩, ⟨.jump ⟨0⟩, none⟩], [⟨.echo ⟨0⟩, none⟩]]
  roots := [⟨0⟩, ⟨0⟩]

def tangleProgram : Program where
  blocks := [{
    label := ⟨0⟩, origin := ⟨0⟩, instrs := [.binary (.arithmetic .plus) 0 0 0, .jump ⟨0⟩],
    lines := [some 3, none], constants := [⟨⟨0⟩, 0, .integer 9223372036854775807⟩], scopeSize := 1 }]
  entry := ⟨0⟩
  slotCount := 1

def tangleFailure : Failure where
  fault := .overflow "PLUS" 9223372036854775807 9223372036854775807
  location := some ⟨⟨0⟩, 0, "PLUS", some 3, none⟩
  callStack := [⟨0⟩]

theorem lower_verified_tangle :
    (tangleProgram.verify = .ok () ∧ tangleProgram.entry = ⟨0⟩ ∧
      ∀ b ∈ tangleProgram.blocks, b.scopeSize = tangleProgram.slotCount) ∧
    (Problem.failed tangleFailure).stage ≠ "verify" ∧
      ∀ f, Problem.failed tangleFailure = .failed f → f.fault.isInternal = false := by
  have hLower : tangle.lower [⟨0⟩, ⟨0⟩] = .ok tangleProgram := by decide +kernel
  have hRun : lowerAndRun 2 tangle {} = some (.error (.failed tangleFailure), {}) := by
    decide +kernel
  exact ⟨(lower_verified tangle).1 _ _ hLower, (lower_verified tangle).2 2 {} {} _ rfl hRun⟩

end Graph

end BlockMachine
