import BlockMachine.Proofs.Lowering.Budget
import BlockMachine.Proofs.Lowering.Simulation

/-!
# Runs of lowered programs
A run of a lowered program on an idle host ends exactly if the walk from the first root does, and
then tells the same: the result, the output, the warnings and the steps.
-/

namespace BlockMachine
set_option autoImplicit false

open Machine

/-- Every block knows its operands by these slots. -/
def Program.Places (p : Program) (slot : OperandId → Slot) : Prop :=
  ∀ b ∈ p.blocks, (∀ e ∈ b.slots.entries, e.2 = slot e.1) ∧
    ∀ c ∈ b.constants, c.slot = slot c.operand

namespace Machine

/-- The machine shows what the walk shows. The slots hold the values of all temporaries, and those
of the literals of the running block. -/
structure State.Mirrors (s : State) (p : Program) (h : Host) (w : Walk.State) : Prop where
  shows : s.Shows h w.output w.warnings w.steps
  values : ∃ a b, s.running = some a ∧ p.block? a.code = some b ∧
    (∀ other ∈ p.blocks, ∀ e ∈ other.slots.entries, a.scope[e.2]? = some (w.valuation e.1)) ∧
    ∀ c ∈ b.constants, a.scope[c.slot]? = some (w.valuation c.operand)

/-- The report tells how the walk ended. A machine that hits its step limit has counted the step
that was one too many, and no more of what the walk counts for a list. -/
structure Report.Tells (r : Report) (slot : OperandId → Slot) (limits : Limits) (h : Host)
    (w : Walk.State) (fault : Option (Fault OperandId)) : Prop where
  result : r.result.mapError Failure.fault =
    match fault with
    | none => .ok ()
    | some f => .error (f.map slot)
  output : r.host.sink.kept = h.sink.kept ++ w.output
  warnings : r.warnings = w.warnings
  steps : r.steps = limits.counted w.steps

/-- Run on the host, the program means what the walk from the block does. -/
structure Simulates (p : Program) (limits : Limits) (h : Host) (slot : OperandId → Slot) (g : Graph)
    (b : BlockId) : Prop where
  run_of_walk : ∀ fuel w fault, Walk.run fuel g h.constants limits.maxSteps b = some (w, fault) →
    ∃ fuel' report, Machine.run fuel' p limits h = some report ∧ report.Tells slot limits h w fault
  walk_of_run : ∀ fuel report, Machine.run fuel p limits h = some report →
    ∃ fuel' w fault, Walk.run fuel' g h.constants limits.maxSteps b = some (w, fault) ∧
      report.Tells slot limits h w fault
  mirrors : ∀ w, Walk.Visits g h.constants limits.maxSteps b w →
    ∃ s, Visits p limits h s ∧ s.Mirrors p h w
  stepLimit : ∀ m, limits.maxSteps = some m →
    ((∃ fuel report f, Machine.run fuel p limits h = some report ∧ report.result = .error f ∧
      f.fault = .stepLimit m) ↔ Walk.Exceeds g h.constants b m)

theorem tells_conclude {slot : OperandId → Slot} {limits : Limits} {h : Host} {w : Walk.State}
    {fault : Option (Fault OperandId)} {s : State} {failure : Option Failure}
    (hFault : failure.map Failure.fault = fault.map (Fault.map slot))
    (hShows : s.Shows h w.output w.warnings (limits.counted w.steps)) :
    (conclude s failure).Tells slot limits h w fault := by
  cases failure with
  | none =>
    cases fault with
    | some f => cases hFault
    | none =>
      rw [conclude, Sink.flush_of_unlimited hShows.unlimited]
      exact ⟨rfl, hShows.output, (hShows.report rfl).warnings, hShows.steps⟩
  | some failure =>
    cases fault with
    | none => cases hFault
    | some f =>
      exact ⟨congrArg Except.error (Option.some.inj hFault), hShows.output,
        (hShows.report rfl).warnings, hShows.steps⟩

end Machine

namespace Layout

variable {l : Layout} {g : Graph} {roots : List BlockId} {limits : Limits} {h : Host}
  {origin : BlockId} {a : Activation} {spares : List (List Slot)} {w : Walk.State}
  {s : Machine.State}

theorem Sound.places (hSound : l.Sound g roots) : (l.program g).Places l.slot := by
  intro b hb
  obtain ⟨i, hi⟩ := List.mem_iff_getElem?.mp hb
  obtain ⟨origin, spares, -, -, -, rfl⟩ := hSound.block_eq hi
  exact ⟨fun e he => (Graph.mem_slotTable he).2.2, fun c hc => (Graph.mem_constants.mp hc).2.1⟩

theorem Follows.mirrors (hSound : l.Sound g roots)
    (hF : l.Follows g limits h origin a spares w s) : s.Mirrors (l.program g) h w := by
  obtain ⟨all, hBlock, -⟩ := hF.code
  refine ⟨hF.shows, a, _, hF.running, hBlock, fun other hOther e he => ?_, fun c hc => ?_⟩
  · obtain ⟨i, hi⟩ := List.mem_iff_getElem?.mp hOther
    obtain ⟨origin', spares', hOrigin, -, -, rfl⟩ := hSound.block_eq hi
    obtain ⟨ho, hTemporary, hSlot⟩ := Graph.mem_slotTable he
    have hMem := Graph.mem_operandsOf.mpr ⟨origin', List.mem_of_getElem? hOrigin, ho⟩
    rw [hSlot]
    exact hF.holds.values e.1 hMem (.inl hTemporary)
  · obtain ⟨ho, hSlot, -⟩ := Graph.mem_constants.mp hc
    have hMem := Graph.mem_operandsOf.mpr ⟨origin, hF.mem_origins, ho⟩
    rw [hSlot]
    exact hF.holds.values c.operand hMem (.inr ho)

theorem Follows.halts (hSound : l.Sound g roots) {fuel : Nat} {w' : Walk.State}
    {fault : Option (Fault OperandId)} (hF : l.Follows g limits h origin a spares w s)
    (hWalk : Walk.iterate g h.constants limits.maxSteps fuel w = some (w', fault)) :
    ∃ t failure, Halts (l.program g) limits s t failure ∧
      failure.map Failure.fault = fault.map (Fault.map l.slot) ∧
      t.Shows h w'.output w'.warnings (limits.counted w'.steps) := by
  induction fuel generalizing origin a spares w s with
  | zero => cases hWalk
  | succ fuel ih =>
    have hAnswers := hF.answers hSound
    rw [Walk.iterate] at hWalk
    split at hWalk
    · rename_i hStep
      rw [hStep] at hAnswers
      obtain ⟨n, t, origin', a', spares', -, hPasses, hNext⟩ := hAnswers
      obtain ⟨u, failure, hHalts, hFault, hShows⟩ := ih hNext hWalk
      exact ⟨u, failure, hHalts.of_passes hPasses, hFault, hShows⟩
    · rename_i hStep
      rw [hStep] at hAnswers
      cases hWalk
      exact hAnswers

theorem Follows.tells_end (hSound : l.Sound g roots) {fuel : Nat} {w' : Walk.State}
    {fault : Option (Fault OperandId)} (hF : l.Follows g limits h origin a spares w s)
    (hWalk : Walk.iterate g h.constants limits.maxSteps fuel w = some (w', fault)) :
    ∃ fuel' t failure, Machine.iterate (l.program g) limits fuel' s = some (t, failure) ∧
      (conclude t failure).Tells l.slot limits h w' fault := by
  obtain ⟨t, failure, hHalts, hFault, hShows⟩ := hF.halts hSound hWalk
  obtain ⟨fuel', hIterate⟩ := hHalts.exists_iterate
  exact ⟨fuel', t, failure, hIterate, tells_conclude hFault hShows⟩

/-- When the run of the machine is over, so is the walk: every turn of it takes some fuel. -/
theorem Follows.walk_ends (hSound : l.Sound g roots) {fuel : Nat}
    {r : Machine.State × Option Failure} (hF : l.Follows g limits h origin a spares w s)
    (hRun : Machine.iterate (l.program g) limits fuel s = some r) :
    ∃ n w' fault, Walk.iterate g h.constants limits.maxSteps n w = some (w', fault) := by
  induction fuel using Nat.strongRecOn generalizing origin a spares w s with
  | ind fuel ih =>
    have hAnswers := hF.answers hSound
    cases hStep : Walk.step g h.constants limits.maxSteps w with
    | halt w' fault =>
      refine ⟨1, w', fault, ?_⟩
      rw [Walk.iterate, hStep]
    | next w' =>
      rw [hStep] at hAnswers
      obtain ⟨k, t, origin', a', spares', hPos, hPasses, hNext⟩ := hAnswers
      obtain ⟨hLt, hRest⟩ := hPasses.iterate_sub hRun
      obtain ⟨n, w'', fault, hWalk⟩ := ih (fuel - k) (by omega) hNext hRest
      refine ⟨n + 1, w'', fault, ?_⟩
      rw [Walk.iterate, hStep]
      exact hWalk

/-- After its first transition, the machine follows the walk that has entered the first root. -/
theorem Sound.follows_start (hSound : l.Sound g roots) {r : BlockId}
    (hHead : l.origins[0]? = some r) (hPending : h.pending = []) (hSink : h.sink.Unlimited)
    (limits : Limits) :
    ∃ entry s w a spares, (l.program g).entryBlock? = some entry ∧
      Machine.step (l.program g) limits
        (start (l.program g) entry (h.push (.block entry.activation))) = .next s ∧
      Walk.enter g { valuation := Valuation.unknown, rest := [] } r = .next w ∧
      l.Follows g limits h r a spares w s := by
  have hRoot : r ∈ l.origins := List.mem_of_getElem? hHead
  obtain ⟨nodes, hNodes⟩ := Option.isSome_iff_exists.mp (hSound.covers r hRoot).exist
  obtain ⟨spares, hSpares, hJoints, hBlock⟩ := hSound.block?_label hRoot
  have hEntry := hBlock
  rw [hSound.label_eq 0 r hHead] at hEntry
  have hWithin : overLimit limits 0 = none :=
    (overLimit_eq_none_iff limits 0).mpr fun m _ => Nat.zero_le m
  have hWalk : Walk.enter g { valuation := Valuation.unknown, rest := [] } r =
      .next ⟨Valuation.unknown.load g, g.nodes r, [], [], 0⟩ := by
    rw [Walk.enter, hNodes, Graph.nodes_eq hNodes]
  have hShows (s : Machine.State) (hHost : s.host = h) (hSteps : s.steps = 0)
      (hTrail : s.trail.reverse.filterMap Event.warning? = []) : s.Shows h [] [] 0 := by
    subst hHost
    exact ⟨hPending, rfl, hSink, (List.append_nil _).symm, hTrail, hSteps⟩
  refine ⟨_, { start (l.program g) (g.render l.toPlacement l.slotCount r spares) h with
    running := some (g.render l.toPlacement l.slotCount r spares).activation },
    _, (g.render l.toPlacement l.slotCount r spares).activation, spares, hEntry, rfl, hWalk, ?_⟩
  refine hSound.follows_enter hRoot hSpares hJoints hBlock rfl (fun o ho _ => ?_)
    (hShows _ rfl rfl rfl) hWithin
  exact CodeBlock.grow_empty _ (hSound.slot_lt ho)

theorem Follows.follows_visits (hSound : l.Sound g roots) {r : BlockId} {w₀ : Walk.State}
    (hEnter : Walk.enter g { valuation := Valuation.unknown, rest := [] } r = .next w₀)
    {s₀ : Machine.State} (hReaches : Reaches (l.program g) limits s₀ s)
    (hF : l.Follows g limits h origin a spares w₀ s)
    (hVisits : Walk.Visits g h.constants limits.maxSteps r w) :
    ∃ t origin a spares, Reaches (l.program g) limits s₀ t ∧
      l.Follows g limits h origin a spares w t := by
  induction hVisits with
  | enter hFirst =>
    cases hEnter.symm.trans hFirst
    exact ⟨s, origin, a, spares, hReaches, hF⟩
  | step _ hStep ih =>
    obtain ⟨t, origin', a', spares', hReaches, hThere⟩ := ih
    have hAnswers := hThere.answers hSound
    rw [hStep] at hAnswers
    obtain ⟨n, u, origin'', a'', spares'', -, hPasses, hNext⟩ := hAnswers
    exact ⟨u, origin'', a'', spares'', hPasses.reaches hReaches, hNext⟩

end Layout

namespace Machine

variable {p : Program} {limits : Limits} {h : Host} {slot : OperandId → Slot} {g : Graph}
  {b : BlockId} {w : Walk.State} {fault : Option (Fault OperandId)} {r : Report} {m : Nat}

theorem Report.Tells.stepLimit_iff (hTells : r.Tells slot limits h w fault) :
    (∃ f, r.result = .error f ∧ f.fault = .stepLimit m) ↔ fault = some (.stepLimit m) := by
  have hResult := hTells.result
  constructor
  · rintro ⟨f, hError, hFault⟩
    rw [hError] at hResult
    cases fault with
    | none => cases hResult
    | some f' =>
      have hMap : f.fault = f'.map slot := Except.error.inj hResult
      rw [hFault] at hMap
      cases f' with
      | stepLimit n =>
        cases hMap
        rfl
      | _ => cases hMap
  · rintro rfl
    cases hError : r.result with
    | ok u =>
      rw [hError] at hResult
      cases hResult
    | error f =>
      rw [hError] at hResult
      exact ⟨f, rfl, Except.error.inj hResult⟩

theorem exists_stepLimit_iff
    (hWalk : ∀ fuel w fault, Walk.run fuel g h.constants limits.maxSteps b = some (w, fault) →
      ∃ fuel' report, run fuel' p limits h = some report ∧ report.Tells slot limits h w fault)
    (hRun : ∀ fuel report, run fuel p limits h = some report →
      ∃ fuel' w fault, Walk.run fuel' g h.constants limits.maxSteps b = some (w, fault) ∧
        report.Tells slot limits h w fault) (hMax : limits.maxSteps = some m) :
    (∃ fuel report f, run fuel p limits h = some report ∧ report.result = .error f ∧
      f.fault = .stepLimit m) ↔ Walk.Exceeds g h.constants b m := by
  rw [← Walk.exists_stepLimit_iff, ← hMax]
  constructor
  · rintro ⟨fuel, report, f, hReport, hError⟩
    obtain ⟨fuel', w, fault, hEnd, hTells⟩ := hRun fuel report hReport
    have hFault := hTells.stepLimit_iff.mp ⟨f, hError⟩
    exact ⟨fuel', w, hFault ▸ hEnd⟩
  · rintro ⟨fuel, w, hEnd⟩
    obtain ⟨fuel', report, hReport, hTells⟩ := hWalk fuel w _ hEnd
    obtain ⟨f, hError⟩ := hTells.stepLimit_iff.mpr rfl
    exact ⟨fuel', report, f, hReport, hError⟩

end Machine

namespace Layout.Sound

variable {l : Layout} {g : Graph} {roots : List BlockId}

theorem simulates (hSound : l.Sound g roots) {r : BlockId} (hHead : l.origins[0]? = some r)
    {limits : Limits} {h : Host} (hFrames : 1 ≤ limits.maxFrames) (hPending : h.pending = [])
    (hSink : h.sink.Unlimited) : Simulates (l.program g) limits h l.slot g r := by
  have hVerify := ((l.program g).verify_eq_ok_iff).mpr hSound.wellFormed
  obtain ⟨entry, s, w₀, a, spares, hEntry, hStep, hEnter, hF⟩ :=
    hSound.follows_start hHead hPending hSink limits
  have hDepth : ¬ limits.maxFrames ≤ h.depth := by
    rw [Host.depth, hPending, List.length_nil]
    omega
  have hRun (fuel : Nat) : Machine.run fuel (l.program g) limits h =
      (Machine.iterate (l.program g) limits fuel
        (start (l.program g) entry (h.push (.block entry.activation)))).map
        fun x => conclude x.1 x.2 := by
    rw [run_of_entry hVerify hEntry, runFrom, if_neg hDepth]
  have hWalk (fuel : Nat) : Walk.run fuel g h.constants limits.maxSteps r =
      Walk.iterate g h.constants limits.maxSteps fuel w₀ := by
    rw [Walk.run, hEnter]
  have hRunOfWalk : ∀ fuel w fault,
      Walk.run fuel g h.constants limits.maxSteps r = some (w, fault) →
      ∃ fuel' report, Machine.run fuel' (l.program g) limits h = some report ∧
        report.Tells l.slot limits h w fault := by
    intro fuel w fault hEnd
    rw [hWalk] at hEnd
    obtain ⟨fuel', t, failure, hIterate, hTells⟩ := hF.tells_end hSound hEnd
    refine ⟨1 + fuel', _, ?_, hTells⟩
    rw [hRun, (Passes.single hStep).iterate_add, hIterate, Option.map_some]
  have hWalkOfRun : ∀ fuel report, Machine.run fuel (l.program g) limits h = some report →
      ∃ fuel' w fault, Walk.run fuel' g h.constants limits.maxSteps r = some (w, fault) ∧
        report.Tells l.slot limits h w fault := by
    intro fuel report hReport
    rw [hRun] at hReport
    obtain ⟨⟨t, failure⟩, hIterate, rfl⟩ := Option.map_eq_some_iff.mp hReport
    obtain ⟨-, hRest⟩ := (Passes.single hStep).iterate_sub hIterate
    obtain ⟨n, w, fault, hEnd⟩ := hF.walk_ends hSound hRest
    obtain ⟨fuel', t', failure', hIterate', hTells⟩ := hF.tells_end hSound hEnd
    cases iterate_unique hRest hIterate'
    exact ⟨n, w, fault, (hWalk n).trans hEnd, hTells⟩
  refine ⟨hRunOfWalk, hWalkOfRun, fun w hVisits => ?_, fun m hMax => ?_⟩
  · obtain ⟨t, origin, a', spares', hReaches, hThere⟩ :=
      hF.follows_visits hSound hEnter (.step (.refl _) hStep) hVisits
    exact ⟨t, ⟨hVerify, Nat.not_le.mp hDepth, entry, hEntry, hReaches⟩, hThere.mirrors hSound⟩
  · exact exists_stepLimit_iff hRunOfWalk hWalkOfRun hMax

end Layout.Sound

namespace Graph

/-- A lowered program on an idle host with an unlimited sink means what its graph means from the
first root on, under every step limit and with any constants. -/
theorem lower_preserves {g : Graph} {roots : List BlockId} {p : Program}
    (hLower : g.lower roots = .ok p) :
    ∃ r slot, roots.head? = some r ∧ p.Places slot ∧
      ∀ (limits : Limits) (h : Host), 1 ≤ limits.maxFrames → h.pending = [] → h.sink.Unlimited →
        Machine.Simulates p limits h slot g r := by
  obtain ⟨l, hSound, rfl⟩ := exists_layout_of_lower hLower
  obtain ⟨r, hRoot, hHead⟩ := hSound.head
  exact ⟨r, l.slot, hRoot, hSound.places, fun limits h hFrames hPending hSink =>
    hSound.simulates hHead hFrames hPending hSink⟩

/-- A loop that goes round twice. Each time it stores a list in a literal that is among the parts,
which has its own value again the next time. -/
def chorus : Graph where
  operands := [.temporary (some "i"), .literal (.integer 0), .temporary none, .literal (.integer 2),
    .temporary none, .literal (.integer 1), .temporary none, .literal (.string "la")]
  blocks := [
    [⟨.assign ⟨0⟩ ⟨1⟩ ⟨2⟩, some 1⟩, ⟨.jump ⟨1⟩, none⟩],
    [⟨.binary .smaller ⟨0⟩ ⟨3⟩ ⟨4⟩, some 2⟩, ⟨.branch ⟨4⟩ ⟨2⟩ ⟨3⟩, some 2⟩],
    [⟨.concatList [⟨7⟩, ⟨0⟩, ⟨7⟩] ⟨7⟩, some 3⟩, ⟨.echo ⟨7⟩, some 3⟩,
      ⟨.binary .plus ⟨0⟩ ⟨5⟩ ⟨6⟩, some 4⟩, ⟨.assign ⟨0⟩ ⟨6⟩ ⟨2⟩, some 4⟩, ⟨.jump ⟨1⟩, none⟩],
    []]

/-- The limit stops the second list in the middle, after one line of output. -/
theorem lower_preserves_chorus :
    ∃ p slot w fuel report, chorus.lower [⟨0⟩] = .ok p ∧ p.Places slot ∧
      Machine.Simulates p { maxSteps := some 14 } {} slot chorus ⟨0⟩ ∧
      Walk.run 20 chorus {} (some 14) ⟨0⟩ = some (w, some (.stepLimit 14)) ∧
      Machine.run fuel p { maxSteps := some 14 } {} = some report ∧
      report.Tells slot { maxSteps := some 14 } {} w (some (.stepLimit 14)) := by
  have hOk : (chorus.lower [⟨0⟩]).isOk = true := by decide +kernel
  have hWalk : (Walk.run 20 chorus {} (some 14) ⟨0⟩).map Prod.snd = some (some (.stepLimit 14)) := by
    decide +kernel
  cases hLower : chorus.lower [⟨0⟩] with
  | error e =>
    rw [hLower] at hOk
    cases hOk
  | ok p =>
    obtain ⟨r, slot, hHead, hPlaces, hSimulates⟩ := lower_preserves hLower
    cases hHead
    have hMeans := hSimulates { maxSteps := some 14 } {} (by decide) rfl ⟨rfl, rfl⟩
    obtain ⟨⟨w, fault⟩, hRun, rfl⟩ := Option.map_eq_some_iff.mp hWalk
    obtain ⟨fuel, report, hReport, hTells⟩ := hMeans.run_of_walk 20 w _ hRun
    exact ⟨p, slot, w, fuel, report, rfl, hPlaces, hMeans, hRun, hReport, hTells⟩

end Graph

end BlockMachine
