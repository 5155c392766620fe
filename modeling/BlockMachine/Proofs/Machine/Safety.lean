import BlockMachine.Machine.Reach
import BlockMachine.Proofs.Code.Verifier
import BlockMachine.Proofs.Machine.Scope
import BlockMachine.Proofs.Outcome

/-!
# Runs of verified programs
A verified program never sends the machine astray. The invariant is that every activation, running
or pending, is of a block of the program and has all the slots that the block asks for.
-/

namespace BlockMachine
set_option autoImplicit false

/-- The activation is of a block of the program, is at most at its end, and lacks no slot. -/
def Activation.Belongs (p : Program) (a : Activation) : Prop :=
  ∃ b, p.block? a.code = some b ∧ b.scopeSize ≤ a.scope.size ∧ a.pc ≤ b.instrs.length

def Frame.Belongs (p : Program) : Frame → Prop
  | .block a => a.Belongs p
  | .continuation _ => True

/-- The values are to blame, and neither the host nor the machine. -/
def Fault.isEvaluation {place : Type} : Fault place → Bool
  | .coercion _ _ _ _ _ | .overflow _ _ _ | .undefinedConstant _ _ => true
  | .stepLimit _ | .frameLimit _ | .output _ | .internal _ => false

theorem Fault.isInternal_of_isEvaluation {place : Type} {fault : Fault place}
    (h : fault.isEvaluation = true) : fault.isInternal = false := by
  cases fault with
  | internal text => cases h
  | _ => rfl

namespace Eval

variable {place α β : Type}

/-- What is computed has the property, and a fault is one of evaluation. -/
def Ensures (x : Eval place α) (P : α → Prop) : Prop :=
  ∀ ws, match x ws with
    | .ok a _ => P a
    | .error fault _ => fault.isEvaluation = true

namespace Ensures

theorem pure {P : α → Prop} {a : α} (h : P a) : Ensures (Pure.pure a : Eval place α) P := fun _ => h

theorem throw {P : α → Prop} {fault : Fault place} (h : fault.isEvaluation = true) :
    Ensures (MonadExcept.throw fault : Eval place α) P := fun _ => h

theorem bind {x : Eval place α} {f : α → Eval place β} {P : α → Prop} {Q : β → Prop}
    (hx : Ensures x P) (hf : ∀ a, P a → Ensures (f a) Q) : Ensures (x >>= f) Q := by
  intro ws
  have h := hx ws
  cases hResult : x ws with
  | ok a ws' =>
    rw [hResult] at h
    rw [Outcome.bind_of_ok hResult]
    exact hf a h ws'
  | error fault ws' =>
    rw [hResult] at h
    rw [Outcome.bind_of_error hResult]
    exact h

theorem mono {x : Eval place α} {P Q : α → Prop} (h : Ensures x P) (hPQ : ∀ a, P a → Q a) :
    Ensures x Q := by
  intro ws
  have hResult := h ws
  split at hResult
  · exact hPQ _ hResult
  · exact hResult

end Ensures

variable {read : place → Eval place Value} {o : place}

theorem warn_ensures (text : Option String) : Ensures (warn text : Eval place Unit) fun _ => True :=
  fun _ => trivial

theorem int_ensures (mnemonic : String) (h : Ensures (read o) fun _ => True) :
    Ensures (int read mnemonic o) fun _ => True := by
  apply h.bind
  intro v _
  cases v.toInt with
  | ok r => exact (warn_ensures r.warning).bind fun _ _ => Ensures.pure trivial
  | error reason => exact Ensures.throw rfl

theorem name_ensures (h : Ensures (read o) fun _ => True) :
    Ensures (name read o) fun _ => True := h.bind fun _ _ => Ensures.pure trivial

end Eval

variable {place : Type} {read : place → Eval place Value}

theorem Operator.eval_ensures (op : Operator) {left right : place}
    (hLeft : (read left).Ensures fun _ => True) (hRight : (read right).Ensures fun _ => True) :
    (op.eval read left right).Ensures fun _ => True := by
  cases op with
  | concat | equal | notEqual =>
    exact hLeft.bind fun _ _ => hRight.bind fun _ _ => .pure trivial
  | arithmetic f =>
    apply (Eval.int_ensures _ hLeft).bind
    intro a _
    apply (Eval.int_ensures _ hRight).bind
    intro b _
    cases f.apply a b with
    | some n => exact .pure trivial
    | none => exact .throw rfl
  | comparison f =>
    exact (Eval.int_ensures _ hLeft).bind fun _ _ =>
      (Eval.int_ensures _ hRight).bind fun _ _ => .pure trivial

theorem fetchConstant_ensures (lookup : String → Option Value) {name : place}
    {qualified : Option place} (hName : (read name).Ensures fun _ => True)
    (hQualified : ∀ q ∈ qualified, (read q).Ensures fun _ => True) :
    (fetchConstant lookup read name qualified).Ensures fun _ => True := by
  apply (Eval.name_ensures hName).bind
  intro text _
  have hOption : (qualified.mapM (Eval.name read)).Ensures fun _ => True := by
    cases qualified with
    | none => exact .pure trivial
    | some q => exact (Eval.name_ensures (hQualified q rfl)).bind fun _ _ => .pure trivial
  apply hOption.bind
  intro other _
  cases other.bind lookup <|> lookup text with
  | some v => exact .pure trivial
  | none => exact .throw rfl

theorem Scope.read_ensures {scope : Scope} {s : Slot} (h : s < scope.size) :
    (Scope.read scope s).Ensures fun _ => True := by
  rw [Scope.read, Array.getElem?_eq_getElem h]
  exact .pure trivial

/-- The effect stays with the slots and targets that the instruction names. -/
def Effect.Within (i : Instr) : Effect Slot Label → Prop
  | .store writes => ∀ w ∈ writes, w.1 ∈ i.slots
  | .output _ => True
  | .transfer target => target ∈ i.targets

theorem Instr.effect_ensures (constants : Constants) {scope : Scope} (i : Instr)
    (h : ∀ s ∈ i.slots, s < scope.size) : (i.effect constants scope).Ensures (·.Within i) := by
  have hRead (s : Slot) (hs : s ∈ i.slots) : (Scope.read scope s).Ensures fun _ => True :=
    Scope.read_ensures (h s hs)
  cases i with
  | echo value => exact (hRead value (by simp [slots])).bind fun _ _ => .pure trivial
  | assign result var expr =>
    exact (hRead expr (by simp [slots])).bind fun v _ =>
      .pure (by simp [Effect.Within, slots])
  | binary op result left right =>
    have hEval := op.eval_ensures (hRead left (by simp [slots])) (hRead right (by simp [slots]))
    exact hEval.bind fun v _ => .pure (by simp [Effect.Within, slots])
  | constFetch result name qualified =>
    have hQualified : ∀ q ∈ qualified, (Scope.read scope q).Ensures fun _ => True :=
      fun q hq => hRead q (by simp [slots, Option.mem_def.mp hq])
    have hFetch := fetchConstant_ensures constants.lookup (hRead name (by simp [slots])) hQualified
    exact hFetch.bind fun v _ => .pure (by simp [Effect.Within, slots])
  | jump target => exact .pure (by simp [Effect.Within, targets])
  | branch cond ifTrue ifFalse =>
    refine (hRead cond (by simp [slots])).bind fun v _ => .pure ?_
    cases v.toBool <;> simp [Effect.Within, targets]

theorem Scope.writeAll_ok (writes : List (Slot × Value)) {scope : Scope}
    (h : ∀ w ∈ writes, w.1 < scope.size) :
    ∃ after, scope.writeAll writes = .ok after ∧ after.size = scope.size := by
  induction writes generalizing scope with
  | nil => exact ⟨scope, rfl, rfl⟩
  | cons w writes ih =>
    obtain ⟨s, v⟩ := w
    obtain ⟨hHead, hTail⟩ := List.forall_mem_cons.mp h
    have hSize : (scope.setIfInBounds s v).size = scope.size := Array.size_setIfInBounds
    have hRest : ∀ w ∈ writes, w.1 < (scope.setIfInBounds s v).size := fun w hw =>
      hSize.symm ▸ hTail w hw
    obtain ⟨after, hAfter, hAfterSize⟩ := ih hRest
    refine ⟨after, ?_, hAfterSize.trans hSize⟩
    rw [writeAll, write, if_pos hHead]
    exact hAfter

theorem CodeBlock.belongs_enter {p : Program} (hp : p.WellFormed) {l : Label} {b : CodeBlock}
    (hb : p.block? l = some b) (scope : Scope) (cameFrom : Option Label) :
    (b.enter scope cameFrom).Belongs p := by
  have hCode : p.block? (b.enter scope cameFrom).code = some b := by
    rw [enter, hp.label_eq hb]
    exact hb
  exact ⟨b, hCode, b.scopeSize_le_enter scope cameFrom, Nat.zero_le _⟩

namespace Machine

structure State.Belongs (p : Program) (s : State) : Prop where
  running : ∀ a, s.running = some a → a.Belongs p
  pending : ∀ f ∈ s.host.pending, f.Belongs p

/-- The machine goes on in good order, or stops for a reason that is not its own. -/
def Transition.Orderly (p : Program) : Transition → Prop
  | .next s => s.Belongs p
  | .halt _ failure => ∀ f, failure = some f → f.fault.isInternal = false

variable {p : Program} {limits : Limits} {s : State}

theorem resolves_of_belongs (hp : p.WellFormed) {a : Activation} (ha : a.Belongs p)
    {b : CodeBlock} {i : Instr} (hb : p.block? a.code = some b) (hi : b.instrs[a.pc]? = some i) :
    i.Resolves a.scope.size p.blocks.length := by
  obtain ⟨c, hc, hSize, -⟩ := ha
  cases hb.symm.trans hc
  obtain ⟨hSlots, hTargets⟩ := (hp.block hb).resolves i (List.mem_of_getElem? hi)
  exact ⟨fun s hs => Nat.lt_of_lt_of_le (hSlots s hs) hSize, hTargets⟩

theorem perform_orderly (hp : p.WellFormed) (hs : s.Belongs p) {b : CodeBlock} {a : Activation}
    {i : Instr} (hb : p.block? a.code = some b) (ha : a.Belongs p)
    (hi : b.instrs[a.pc]? = some i) {effect : Effect Slot Label} (hEffect : effect.Within i) :
    (perform p s b a effect).Orderly p := by
  obtain ⟨hSlots, hTargets⟩ := resolves_of_belongs hp ha hb hi
  obtain ⟨c, hc, hSize, -⟩ := ha
  cases hb.symm.trans hc
  obtain ⟨hPc, -⟩ := List.getElem?_eq_some_iff.mp hi
  cases effect with
  | store writes =>
    obtain ⟨after, hAfter, hAfterSize⟩ :=
      Scope.writeAll_ok writes fun w hw => hSlots w.1 (hEffect w hw)
    rw [perform, hAfter]
    refine ⟨?_, hs.pending⟩
    rintro _ ⟨⟩
    exact ⟨b, hb, hAfterSize.symm ▸ hSize, hPc⟩
  | output bytes =>
    rw [perform]
    split
    · refine ⟨?_, hs.pending⟩
      rintro _ ⟨⟩
      exact ⟨b, hb, hSize, hPc⟩
    · rintro _ ⟨⟩
      rfl
  | transfer target =>
    obtain ⟨next, hNext⟩ := Program.exists_block? (hTargets target hEffect)
    rw [perform, hNext]
    refine ⟨?_, hs.pending⟩
    rintro _ ⟨⟩
    exact next.belongs_enter hp hNext a.scope (some a.code)

theorem execute_orderly (hp : p.WellFormed) (hs : s.Belongs p) {b : CodeBlock} {a : Activation}
    {i : Instr} (hb : p.block? a.code = some b) (ha : a.Belongs p)
    (hi : b.instrs[a.pc]? = some i) : (execute p limits s b a i).Orderly p := by
  rw [execute]
  split
  · rename_i fault hOver
    rintro _ ⟨⟩
    rw [overLimit] at hOver
    split at hOver
    · split at hOver
      · cases hOver
        rfl
      · cases hOver
    · cases hOver
  · have hSlots := (resolves_of_belongs hp ha hb hi).1
    have hEnsures := i.effect_ensures s.host.constants hSlots []
    split
    · rename_i effect warnings hEffect
      simp only [State.report_host] at hEffect
      rw [hEffect] at hEnsures
      refine perform_orderly hp ?_ hb ha hi hEnsures
      exact ⟨hs.running, hs.pending⟩
    · rename_i fault warnings hFault
      simp only [State.report_host] at hFault
      rw [hFault] at hEnsures
      rintro _ ⟨⟩
      exact Fault.isInternal_of_isEvaluation hEnsures

theorem step_orderly (hp : p.WellFormed) (hs : s.Belongs p) : (step p limits s).Orderly p := by
  rw [step]
  split
  · rw [resume]
    split
    · rintro _ ⟨⟩
    · rename_i hPending
      exact ⟨hs.running, fun f hf => hs.pending f (hPending ▸ List.mem_cons_of_mem _ hf)⟩
    · rename_i a rest hPending
      refine ⟨?_, fun f hf => hs.pending f (hPending ▸ List.mem_cons_of_mem _ hf)⟩
      rintro _ ⟨⟩
      exact hs.pending (.block a) (hPending ▸ List.mem_cons_self)
  · rename_i a hRunning
    have ha := hs.running a hRunning
    obtain ⟨b, hb, -⟩ := id ha
    rw [hb]
    dsimp only
    split
    · refine ⟨?_, hs.pending⟩
      rintro _ ⟨⟩
    · rename_i i hi
      exact execute_orderly hp hs hb ha hi

theorem Reaches.belongs (hp : p.WellFormed) {t : State} (h : Reaches p limits s t)
    (hs : s.Belongs p) : t.Belongs p := by
  induction h with
  | refl => exact hs
  | @step t u _ hStep ih =>
    have hOrderly : (Machine.step p limits t).Orderly p := step_orderly hp ih
    rw [hStep] at hOrderly
    exact hOrderly

theorem iterate_not_internal (hp : p.WellFormed) {fuel : Nat} {t : State} {failure : Option Failure}
    (hs : s.Belongs p) (h : iterate p limits fuel s = some (t, failure)) :
    ∀ f, failure = some f → f.fault.isInternal = false := by
  induction fuel generalizing s with
  | zero => cases h
  | succ fuel ih =>
    have hOrderly : (step p limits s).Orderly p := step_orderly hp hs
    rw [iterate] at h
    split at h
    · rename_i hStep
      rw [hStep] at hOrderly
      exact ih hOrderly h
    · rename_i hStep
      rw [hStep] at hOrderly
      cases h
      exact hOrderly

theorem start_belongs (hp : p.WellFormed) {entry : CodeBlock} (hEntry : p.entryBlock? = some entry)
    {h : Host} (hPending : ∀ f ∈ h.pending, f.Belongs p) :
    (start p entry (h.push (.block entry.activation))).Belongs p := by
  refine ⟨?_, ?_⟩
  · rintro _ ⟨⟩
  · intro f hf
    rcases List.mem_cons.mp hf with rfl | hf
    · exact entry.belongs_enter hp hEntry #[] none
    · exact hPending f hf

theorem runFrom_not_internal (hp : p.WellFormed) {entry : CodeBlock}
    (hEntry : p.entryBlock? = some entry) {h : Host} (hPending : ∀ f ∈ h.pending, f.Belongs p)
    {fuel : Nat} {report : Report} (hRun : runFrom fuel p limits entry h = some report) {f : Failure}
    (hf : report.result = .error f) : f.fault.isInternal = false := by
  rw [runFrom] at hRun
  split at hRun
  · cases hRun
    cases hf
    rfl
  · obtain ⟨⟨t, failure⟩, hIterate, hReport⟩ := Option.map_eq_some_iff.mp hRun
    have hFailure := iterate_not_internal hp (start_belongs hp hEntry hPending) hIterate
    subst hReport
    cases failure with
    | some g =>
      cases hf
      exact hFailure f rfl
    | none =>
      dsimp only [conclude] at hf
      split at hf
      · cases hf
        rfl
      · cases hf

theorem run_of_entry (hVerify : p.verify = .ok ()) {entry : CodeBlock}
    (hEntry : p.entryBlock? = some entry) (h : Host) (fuel : Nat) :
    run fuel p limits h = runFrom fuel p limits entry h := by
  rw [run, hVerify]
  dsimp only
  rw [hEntry]

theorem run_not_internal (hVerify : p.verify = .ok ()) {h : Host}
    (hPending : ∀ f ∈ h.pending, f.Belongs p) {fuel : Nat} {report : Report}
    (hRun : run fuel p limits h = some report) {f : Failure} (hf : report.result = .error f) :
    f.fault.isInternal = false := by
  have hp := (p.verify_eq_ok_iff).mp hVerify
  obtain ⟨entry, hEntry⟩ := Program.exists_block? hp.entry_lt
  rw [run_of_entry hVerify hEntry] at hRun
  exact runFrom_not_internal hp hEntry hPending hRun hf

/-- Running a verified program on frames that belong to it never fails internally. Wherever the run
comes, the running activation belongs to the program, and the instruction it is at finds its slots
in the scope and its targets among the blocks. -/
theorem run_of_verified (p : Program) (limits : Limits) (h : Host) (hVerify : p.verify = .ok ())
    (hPending : ∀ f ∈ h.pending, f.Belongs p) :
    (∀ fuel report f, run fuel p limits h = some report → report.result = .error f →
      f.fault.isInternal = false) ∧
    ∀ s, Visits p limits h s → ∀ a, s.running = some a → a.Belongs p ∧
      ∀ b i, p.block? a.code = some b → b.instrs[a.pc]? = some i →
        i.Resolves a.scope.size p.blocks.length := by
  have hp := (p.verify_eq_ok_iff).mp hVerify
  constructor
  · intro fuel report f hRun hf
    exact run_not_internal hVerify hPending hRun hf
  · rintro s ⟨-, -, entry, hEntry, hReaches⟩ a ha
    have hs := hReaches.belongs hp (start_belongs hp hEntry hPending)
    exact ⟨hs.running a ha, fun b i hb hi => resolves_of_belongs hp (hs.running a ha) hb hi⟩

/-- Two blocks of different scope sizes, of which the smaller one is entered from the larger. -/
def relay : Program where
  blocks := [
    { label := ⟨0⟩, origin := ⟨0⟩, instrs := [.binary (.arithmetic .plus) 2 0 1, .jump ⟨1⟩],
      lines := [none, none], constants := [⟨⟨0⟩, 0, .string [49]⟩], scopeSize := 3 },
    { label := ⟨1⟩, origin := ⟨1⟩, instrs := [.echo 0], lines := [none], scopeSize := 1 }]
  entry := ⟨0⟩
  slotCount := 3

/-- A call back to come after a frame of the smaller block, with more slots than it needs. -/
def relayHost : Host where
  pending := [.block { code := ⟨1⟩, scope := #[.integer 7, .unknown] }, .continuation "after"]

theorem run_of_verified_relay :
    relay.verify = .ok () ∧ (∀ f ∈ relayHost.pending, f.Belongs relay) ∧
    (∀ fuel report f, run fuel relay {} relayHost = some report → report.result = .error f →
      f.fault.isInternal = false) ∧
    ∀ s, Visits relay {} relayHost s → ∀ a, s.running = some a → a.Belongs relay ∧
      ∀ b i, relay.block? a.code = some b → b.instrs[a.pc]? = some i →
        i.Resolves a.scope.size relay.blocks.length := by
  have hVerify : relay.verify = .ok () := rfl
  have hPending : ∀ f ∈ relayHost.pending, f.Belongs relay := by
    intro f hf
    simp only [relayHost, List.mem_cons, List.not_mem_nil, or_false] at hf
    rcases hf with rfl | rfl
    · exact ⟨_, rfl, by decide, by decide⟩
    · exact trivial
  exact ⟨hVerify, hPending, run_of_verified relay {} relayHost hVerify hPending⟩

end Machine

end BlockMachine
