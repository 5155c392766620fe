import BlockMachine.Machine.Extension
import BlockMachine.Proofs.Lowering.Rendering
import BlockMachine.Proofs.Machine.Safety
import BlockMachine.Proofs.Machine.Transition

/-!
# Running longer programs
More blocks behind those of a program, and more slots behind those that its instructions name, are
never noticed: control does not leave the first blocks, and the slots that both programs have hold
the same values all along.
-/

namespace BlockMachine
set_option autoImplicit false

namespace Scope

/-- The scopes agree on the first slots. -/
def Agree (n : Nat) (scope scope' : Scope) : Prop := ∀ i < n, scope'[i]? = scope[i]?

variable {n : Nat} {scope scope' : Scope}

theorem Agree.lt_size (h : Agree n scope scope') {s : Slot} (hs : s < n) (hSize : n ≤ scope.size) :
    s < scope'.size := by
  have hGet := h s hs
  rw [Array.getElem?_eq_getElem (Nat.lt_of_lt_of_le hs hSize)] at hGet
  exact lt_size_of_some hGet

theorem Agree.read (h : Agree n scope scope') {s : Slot} (hs : s < n) (hSize : n ≤ scope.size) :
    Scope.read scope' s = Scope.read scope s := by
  have hGet := Array.getElem?_eq_getElem (Nat.lt_of_lt_of_le hs hSize)
  rw [read_of_some hGet, read_of_some ((h s hs).trans hGet)]

theorem Agree.set (h : Agree n scope scope') (s : Slot) (v : Value) :
    Agree n (scope.setIfInBounds s v) (scope'.setIfInBounds s v) := by
  intro i hi
  have hLt : i < scope'.size ↔ i < scope.size := by
    simpa using congrArg (Option.isSome · = true) (h i hi)
  by_cases hSlot : s = i
  · subst hSlot
    rw [Array.getElem?_setIfInBounds_self, Array.getElem?_setIfInBounds_self]
    simp only [hLt]
  · rw [Array.getElem?_setIfInBounds_ne hSlot, Array.getElem?_setIfInBounds_ne hSlot]
    exact h i hi

theorem Agree.writeAll (h : Agree n scope scope') (hSize : n ≤ scope.size)
    (writes : List (Slot × Value)) (hWrites : ∀ w ∈ writes, w.1 < n) :
    ∃ after after', scope.writeAll writes = .ok after ∧ scope'.writeAll writes = .ok after' ∧
      Agree n after after' := by
  induction writes generalizing scope scope' with
  | nil => exact ⟨scope, scope', rfl, rfl, h⟩
  | cons w writes ih =>
    obtain ⟨s, v⟩ := w
    obtain ⟨hHead, hTail⟩ := List.forall_mem_cons.mp hWrites
    have hSize' : n ≤ (scope.setIfInBounds s v).size := by rwa [Array.size_setIfInBounds]
    rw [writeAll_cons_of_lt (Nat.lt_of_lt_of_le hHead hSize),
      writeAll_cons_of_lt (h.lt_size hHead hSize)]
    exact ih (h.set s v) hSize' hTail

end Scope

namespace CodeBlock

open Scope

variable {n : Nat} {scope scope' : Scope}

theorem getElem?_grow (b : CodeBlock) (scope : Scope) {i : Nat} (hi : i < b.scopeSize) :
    (b.grow scope)[i]? = scope[i]?.or (some .unknown) := by
  rw [grow, Array.getElem?_append]
  split
  · rename_i hLt
    rw [Array.getElem?_eq_getElem hLt, Option.some_or]
  · rename_i hGe
    rw [Array.getElem?_eq_none (Nat.le_of_not_lt hGe), Option.none_or, Array.getElem?_replicate,
      if_pos (by omega)]

theorem agree_loadConstants (constants : List Constant) (h : Agree n scope scope') :
    Agree n (loadConstants constants scope) (loadConstants constants scope') := by
  induction constants generalizing scope scope' with
  | nil => exact h
  | cons c constants ih =>
    rw [loadConstants, loadConstants, List.foldl_cons, List.foldl_cons]
    exact ih (h.set c.slot c.value)

end CodeBlock

theorem Operator.eval_congr (op : Operator) {place : Type} {read read' : place → Eval place Value}
    {left right : place} (hLeft : read' left = read left) (hRight : read' right = read right) :
    op.eval read' left right = op.eval read left right := by
  cases op with
  | concat | equal | notEqual => simp only [eval, hLeft, hRight]
  | arithmetic | comparison => simp only [eval, Eval.int, hLeft, hRight]

theorem Instr.effect_congr (constants : Constants) {scope scope' : Scope} (i : Instr)
    (h : ∀ s ∈ i.slots, Scope.read scope' s = Scope.read scope s) :
    i.effect constants scope' = i.effect constants scope := by
  cases i with
  | echo value => rw [effect, effect, h value (by simp [slots])]
  | assign result var expr => rw [effect, effect, h expr (by simp [slots])]
  | binary op result left right =>
    rw [effect, effect, op.eval_congr (h left (by simp [slots])) (h right (by simp [slots]))]
  | constFetch result name qualified =>
    have hName := h name (by simp [slots])
    cases qualified with
    | none => simp only [effect, fetchConstant, Eval.name, hName, Option.mapM_none]
    | some q =>
      have hQualified := h q (by simp [slots])
      simp only [effect, fetchConstant, Eval.name, hName, hQualified, Option.mapM_some]
  | jump target => rfl
  | branch cond ifTrue ifFalse => rw [effect, effect, h cond (by simp [slots])]

/-- The activations are at the same place and agree on the first slots. -/
structure Activation.Widens (n : Nat) (a a' : Activation) : Prop where
  code : a'.code = a.code
  pc : a'.pc = a.pc
  cameFrom : a'.cameFrom = a.cameFrom
  scope : Scope.Agree n a.scope a'.scope

theorem CodeBlock.enter_widens (b : CodeBlock) {m : Nat} (hLe : b.scopeSize ≤ m)
    {scope scope' : Scope} (h : Scope.Agree b.scopeSize scope scope') (cameFrom : Option Label) :
    (b.enter scope cameFrom).Widens b.scopeSize ((b.resize m).enter scope' cameFrom) where
  code := rfl
  pc := rfl
  cameFrom := rfl
  scope := by
    refine agree_loadConstants b.constants fun i hi => ?_
    have hMore : i < (b.resize m).scopeSize := Nat.lt_of_lt_of_le hi hLe
    rw [getElem?_grow b scope hi, getElem?_grow _ scope' hMore, h i hi]

namespace Machine

/-- The states of a machine and of one that may have more slots. They agree, but for the events
that the runs started with. -/
structure State.Widens (n : Nat) (first first' : Event) (s t : State) : Prop where
  running : Option.Rel (Activation.Widens n) s.running t.running
  host : t.host = s.host
  steps : t.steps = s.steps
  trail : ∃ new, s.trail = new ++ [first] ∧ t.trail = new ++ [first']

def Transition.Widens (n : Nat) (first first' : Event) : Transition → Transition → Prop
  | .next s, .next t => s.Widens n first first' t
  | .halt s failure, .halt t failure' => s.Widens n first first' t ∧ failure' = failure
  | _, _ => False

variable {p q : Program} {limits : Limits} {n : Nat} {first first' : Event} {s t : State}
  {a a' : Activation} {b : CodeBlock} {i : Instr}

namespace State.Widens

theorem running_eq_none (h : s.Widens n first first' t) (hNone : s.running = none) :
    t.running = none := by
  have hRunning := h.running
  rw [hNone] at hRunning
  generalize t.running = running at hRunning ⊢
  cases hRunning
  rfl

theorem exists_running (h : s.Widens n first first' t) (ha : s.running = some a) :
    ∃ a', t.running = some a' ∧ a.Widens n a' := by
  have hRunning := h.running
  rw [ha] at hRunning
  generalize t.running = running at hRunning ⊢
  cases hRunning with
  | some hWide => exact ⟨_, rfl, hWide⟩

theorem of_running (h : s.Widens n first first' t) (ha : a.Widens n a') :
    { s with running := some a }.Widens n first first' { t with running := some a' } :=
  { h with running := .some ha }

theorem report (h : s.Widens n first first' t) (e : Event) :
    (s.report e).Widens n first first' (t.report e) := by
  obtain ⟨new, hs, ht⟩ := h.trail
  exact { h with trail := ⟨e :: new, congrArg (e :: ·) hs, congrArg (e :: ·) ht⟩ }

theorem count (h : s.Widens n first first' t) (ha : a.Widens n a') (i : Instr) :
    (s.count a i).Widens n first first' (t.count a' i) := by
  have hEvent : Event.reached a'.code a'.pc i.mnemonic = .reached a.code a.pc i.mnemonic := by
    rw [ha.code, ha.pc]
  rw [State.count, State.count, hEvent]
  exact { h.report (.reached a.code a.pc i.mnemonic) with steps := congrArg (· + 1) h.steps }

theorem warn (h : s.Widens n first first' t) (texts : List String) :
    (s.warn texts).Widens n first first' (t.warn texts) := by
  obtain ⟨new, hs, ht⟩ := h.trail
  refine { h with trail := ⟨texts.reverse.map .warned ++ new, ?_, ?_⟩ }
  · rw [warn_trail, hs, List.append_assoc]
  · rw [warn_trail, ht, List.append_assoc]

theorem failure (h : s.Widens n first first' t) (ha : a.Widens n a') (m : Nat)
    (fault : Fault Slot) : t.failure (b.resize m) a' fault = s.failure b a fault := by
  rw [State.failure, State.failure, h.host, ha.pc, ha.cameFrom]
  rfl

end State.Widens

section Report

def Event.Silent (e : Event) : Prop := e.warning? = none ∧ e.continuation? = none

theorem agrees_of_events {r r' : Report} (hFirst : first.Silent) (hFirst' : first'.Silent)
    {rest : List Event} (hEvents : r.events = first :: rest) (hEvents' : r'.events = first' :: rest)
    (hResult : r'.result = r.result) (hSteps : r'.steps = r.steps) (hHost : r'.host = r.host) :
    r.Agrees r' where
  result := hResult
  steps := hSteps
  host := hHost
  warnings := by
    rw [Report.warnings, Report.warnings, hEvents, hEvents', List.filterMap_cons_none hFirst.1,
      List.filterMap_cons_none hFirst'.1]
  called := by
    rw [Report.called, Report.called, hEvents, hEvents', List.filterMap_cons_none hFirst.2,
      List.filterMap_cons_none hFirst'.2]
  events := by rw [hEvents, hEvents', List.tail_cons, List.tail_cons]

theorem conclude_agrees (hFirst : first.Silent) (hFirst' : first'.Silent)
    (h : s.Widens n first first' t) (failure : Option Failure) :
    (conclude s failure).Agrees (conclude t failure) := by
  obtain ⟨new, hs, ht⟩ := h.trail
  have hClose (e : Event) : (e :: s.trail).reverse = first :: (e :: new).reverse ∧
      (e :: t.trail).reverse = first' :: (e :: new).reverse := by simp [hs, ht]
  cases failure with
  | some f =>
    obtain ⟨hEvents, hEvents'⟩ := hClose (.failed s.steps f.fault.message)
    refine agrees_of_events hFirst hFirst' hEvents ?_ rfl h.steps (by rw [conclude, h.host]; rfl)
    rw [conclude, h.steps]
    exact hEvents'
  | none =>
    have hSink : t.host.sink = s.host.sink := by rw [h.host]
    rw [conclude, conclude, hSink]
    split
    · have hEvents : s.trail.reverse = first :: new.reverse := by simp [hs]
      have hEvents' : t.trail.reverse = first' :: new.reverse := by simp [ht]
      exact agrees_of_events hFirst hFirst' hEvents hEvents' rfl h.steps h.host
    · obtain ⟨hEvents, hEvents'⟩ := hClose (.finished s.steps)
      refine agrees_of_events hFirst hFirst' hEvents ?_ rfl h.steps h.host
      rw [h.steps]
      exact hEvents'

end Report

section Step

variable (hExtends : p.Extends q) (hq : q.WellFormed)
  (hSize : ∀ b ∈ q.blocks, b.scopeSize = q.slotCount)

include hExtends in
theorem block?_of_extends {l : Label} (hb : q.block? l = some b) :
    p.block? l = some (b.resize p.slotCount) := by
  apply getElem?_of_extends hExtends.blocks
  rw [List.getElem?_map]
  exact congrArg (Option.map _) hb

include hExtends in
theorem exists_at (h : s.Widens n first first' t) {o : Option Instr} (hAt : s.At q a b o) :
    ∃ a', a.Widens n a' ∧ t.At p a' (b.resize p.slotCount) o := by
  obtain ⟨a', hRunning, hWide⟩ := h.exists_running hAt.running
  refine ⟨a', hWide, hRunning, ?_, ?_⟩
  · rw [hWide.code]
    exact block?_of_extends hExtends hAt.block
  · rw [hWide.pc]
    exact hAt.instr

include hExtends hSize in
theorem enter_widens {l : Label} (hb : q.block? l = some b) {scope scope' : Scope}
    (h : Scope.Agree q.slotCount scope scope') (cameFrom : Option Label) :
    (b.enter scope cameFrom).Widens q.slotCount
      ((b.resize p.slotCount).enter scope' cameFrom) := by
  have hEq := hSize b (List.mem_of_getElem? hb)
  have hEnter := b.enter_widens (hEq ▸ hExtends.slotCount) (hEq ▸ h) cameFrom
  rwa [hEq] at hEnter

include hq hSize in
theorem resolves_in_slotCount (hb : q.block? a.code = some b) (ha : a.Belongs q)
    (hi : b.instrs[a.pc]? = some i) :
    q.slotCount ≤ a.scope.size ∧ i.Resolves q.slotCount q.blocks.length := by
  have hEq := hSize b (List.mem_of_getElem? hb)
  obtain ⟨c, hc, hLe, -⟩ := ha
  cases hb.symm.trans hc
  have hResolves := (hq.block hb).resolves i (List.mem_of_getElem? hi)
  rw [hEq] at hLe hResolves
  exact ⟨hLe, hResolves⟩

include hExtends hq hSize

theorem perform_widens (hb : q.block? a.code = some b) (ha : a.Belongs q)
    (hi : b.instrs[a.pc]? = some i) (h : s.Widens q.slotCount first first' t)
    (hWide : a.Widens q.slotCount a') {effect : Effect Slot Label} (hEffect : effect.Within i) :
    (perform q s b a effect).Widens q.slotCount first first'
      (perform p t (b.resize p.slotCount) a' effect) := by
  obtain ⟨hLe, hSlots, hTargets⟩ := resolves_in_slotCount hq hSize hb ha hi
  cases effect with
  | store writes =>
    obtain ⟨after, after', hWrite, hWrite', hAgree⟩ :=
      hWide.scope.writeAll hLe writes fun w hw => hSlots w.1 (hEffect w hw)
    rw [perform, perform, hWrite, hWrite']
    exact h.of_running { hWide with pc := congrArg (· + 1) hWide.pc, scope := hAgree }
  | output bytes =>
    have hSink : t.host.sink = s.host.sink := by rw [h.host]
    have hAfter (sink : Sink) : { t.host with sink } = { s.host with sink } := by rw [h.host]
    rw [perform, perform, hSink]
    split
    · have hNext : { a with pc := a.pc + 1 }.Widens q.slotCount { a' with pc := a'.pc + 1 } :=
        { hWide with pc := congrArg (· + 1) hWide.pc }
      exact { h.of_running hNext with host := hAfter _ }
    · exact ⟨{ h with host := hAfter _ }, congrArg some (h.failure hWide _ _)⟩
  | transfer target =>
    obtain ⟨next, hNext⟩ := Program.exists_block? (hTargets target hEffect)
    rw [perform, perform, hNext, block?_of_extends hExtends hNext, hWide.code]
    exact (h.report _).of_running
      (enter_widens hExtends hSize hNext hWide.scope (some a.code))

theorem execute_widens (hb : q.block? a.code = some b) (ha : a.Belongs q)
    (hi : b.instrs[a.pc]? = some i) (h : s.Widens q.slotCount first first' t)
    (hWide : a.Widens q.slotCount a') :
    (execute q limits s b a i).Widens q.slotCount first first'
      (execute p limits t (b.resize p.slotCount) a' i) := by
  have hCount := h.count hWide i
  cases hLimit : overLimit limits (s.steps + 1) with
  | some fault =>
    have hLimit' : overLimit limits (t.steps + 1) = some fault := by rw [h.steps, hLimit]
    rw [execute_of_over hLimit, execute_of_over hLimit']
    exact ⟨hCount, congrArg some (hCount.failure hWide p.slotCount fault)⟩
  | none =>
    have hLimit' : overLimit limits (t.steps + 1) = none := by rw [h.steps, hLimit]
    have hEnsures := i.effect_ensures s.host.constants (resolves_of_belongs hq ha hb hi).1 []
    have hRead : i.effect t.host.constants a'.scope = i.effect s.host.constants a.scope := by
      obtain ⟨hLe, hSlots, -⟩ := resolves_in_slotCount hq hSize hb ha hi
      rw [h.host]
      exact i.effect_congr _ fun slot hs => hWide.scope.read (hSlots slot hs) hLe
    cases hEffect : i.effect s.host.constants a.scope [] with
    | ok effect texts =>
      rw [hEffect] at hEnsures
      rw [execute_of_ok hLimit hEffect, execute_of_ok hLimit' (hRead ▸ hEffect)]
      exact perform_widens hExtends hq hSize hb ha hi (hCount.warn texts) hWide hEnsures
    | error fault texts =>
      rw [execute_of_error hLimit hEffect, execute_of_error hLimit' (hRead ▸ hEffect)]
      have hWarn := hCount.warn texts
      exact ⟨hWarn, congrArg some (hWarn.failure hWide p.slotCount fault)⟩

/-- Two machines that agree make the same transition, as long as the one with fewer slots stays in
its program. -/
theorem step_widens (hs : s.Belongs q) (h : s.Widens q.slotCount first first' t) :
    (step q limits s).Widens q.slotCount first first' (step p limits t) := by
  obtain hNone | ⟨a, hRunning, hBlock⟩ | ⟨a, b, hEnd⟩ | ⟨a, b, i, hInstr⟩ := stands q s
  · have hNone' := h.running_eq_none hNone
    have hRest (rest : List Frame) :
        { t.host with pending := rest } = { s.host with pending := rest } := by rw [h.host]
    have hFrames : t.host.pending = s.host.pending := by rw [h.host]
    rw [step_of_none hNone, step_of_none hNone', resume, resume, hFrames]
    cases s.host.pending with
    | nil => exact ⟨h, rfl⟩
    | cons f rest =>
      cases f with
      | continuation name => exact { h.report (.called name) with host := hRest rest }
      | block a =>
        have hSame : a.Widens q.slotCount a := ⟨rfl, rfl, rfl, fun _ _ => rfl⟩
        exact { h.of_running hSame with host := hRest rest }
  · obtain ⟨b, hb, -⟩ := hs.running a hRunning
    cases hBlock.symm.trans hb
  · obtain ⟨a', -, hEnd'⟩ := exists_at hExtends h hEnd
    rw [step_at_end hEnd, step_at_end hEnd']
    exact { h with running := .none }
  · obtain ⟨a', hWide, hInstr'⟩ := exists_at hExtends h hInstr
    rw [step_at hInstr, step_at hInstr']
    exact execute_widens hExtends hq hSize hInstr.block (hs.running a hInstr.running)
      hInstr.instr h hWide

/-- Both machines go on, or both halt, so they report alike when the fuel is used up. -/
theorem iterate_agrees (hFirst : first.Silent) (hFirst' : first'.Silent) (limits : Limits)
    (fuel : Nat) (hs : s.Belongs q) (h : s.Widens q.slotCount first first' t) :
    Option.Rel Report.Agrees
      ((iterate q limits fuel s).map fun (last, failure) => conclude last failure)
      ((iterate p limits fuel t).map fun (last, failure) => conclude last failure) := by
  induction fuel generalizing s t with
  | zero => exact .none
  | succ fuel ih =>
    have hOrderly : (step q limits s).Orderly q := step_orderly hq hs
    have hStep : (step q limits s).Widens q.slotCount first first' (step p limits t) :=
      step_widens hExtends hq hSize hs h
    rw [iterate, iterate]
    cases hNext : step q limits s with
    | next s' =>
      rw [hNext] at hOrderly hStep
      cases hNext' : step p limits t with
      | next t' =>
        rw [hNext'] at hStep
        exact ih hOrderly hStep
      | halt t' failure =>
        rw [hNext'] at hStep
        cases hStep
    | halt s' failure =>
      rw [hNext] at hStep
      cases hNext' : step p limits t with
      | next t' =>
        rw [hNext'] at hStep
        cases hStep
      | halt t' failure' =>
        rw [hNext'] at hStep
        obtain ⟨hLast, rfl⟩ := hStep
        exact .some (conclude_agrees hFirst hFirst' hLast failure')

end Step

theorem iterate_start (fuel : Nat) (entry : CodeBlock) (h : Host) (a : Activation) :
    iterate p limits (fuel + 1) (start p entry (h.push (.block a))) =
      iterate p limits fuel { start p entry h with running := some a } := rfl

/-- A longer program runs as the program that it begins with, on any frames of that program. -/
theorem run_of_extends (hExtends : p.Extends q) (hVerify : p.verify = .ok ())
    (hVerify' : q.verify = .ok ()) (hSize : ∀ b ∈ q.blocks, b.scopeSize = q.slotCount)
    (fuel : Nat) (limits : Limits) {h : Host} (hPending : ∀ f ∈ h.pending, f.Belongs q) :
    Option.Rel Report.Agrees (run fuel q limits h) (run fuel p limits h) := by
  have hq := (q.verify_eq_ok_iff).mp hVerify'
  obtain ⟨entry, hEntry⟩ := Program.exists_block? hq.entry_lt
  have hLonger : p.entryBlock? = some (entry.resize p.slotCount) := by
    rw [Program.entryBlock?, hExtends.entry]
    exact block?_of_extends hExtends hEntry
  rw [run_of_entry hVerify' hEntry, run_of_entry hVerify hLonger, runFrom, runFrom]
  have hFirst (l : Label) (blocks slots : Nat) : (Event.started l blocks slots).Silent := ⟨rfl, rfl⟩
  have hStart : (start q entry h).Widens q.slotCount _ _
      (start p (entry.resize p.slotCount) h) := ⟨.none, rfl, rfl, [], rfl, rfl⟩
  split
  · exact .some (conclude_agrees (hFirst _ _ _) (hFirst _ _ _) hStart _)
  · cases fuel with
    | zero => exact .none
    | succ fuel =>
      have hEnter : entry.activation.Widens q.slotCount (entry.resize p.slotCount).activation :=
        enter_widens hExtends hSize hEntry (fun _ _ => rfl) none
      have hBelongs : State.Belongs q { start q entry h with running := some entry.activation } := by
        refine ⟨?_, hPending⟩
        rintro _ ⟨⟩
        exact entry.belongs_enter hq hEntry #[] none
      rw [iterate_start, iterate_start]
      exact iterate_agrees hExtends hq hSize (hFirst _ _ _) (hFirst _ _ _) limits fuel hBelongs
        (hStart.of_running hEnter)

end Machine

end BlockMachine
