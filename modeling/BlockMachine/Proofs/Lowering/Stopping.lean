import BlockMachine.Lowering.Script
import BlockMachine.Proofs.Lowering.Checks

/-!
# Where lowering stops
A node or a block that is refused has done its script up to the first check that is not met. As a
slot is known only when it is given out, this is said of every supply that agrees with the draft
that lowering stopped with.
-/

namespace BlockMachine
set_option autoImplicit false

variable {g : Graph} {r : Refusal} {s : Supply} {label : Label} {k : Nat} {ob : Obligation}
  {front deeds : List Deed} {events : List Lowering.Event} {nodes : List Node} {n : Node}

namespace Graph.StopsAt

theorem here (h : ob.refusal? g = some r) (after : List Deed) :
    g.StopsAt r (.check ob :: after) [] :=
  ⟨[], ob, after, rfl, fun _ ho => (List.not_mem_nil ho).elim, h, rfl⟩

theorem behind (hMet : ∀ o, .check o ∈ front → o.refusal? g = none) (h : g.StopsAt r deeds events) :
    g.StopsAt r (front ++ deeds) (front.filterMap Deed.event? ++ events) := by
  obtain ⟨before, ob, after, rfl, hBefore, hRefusal, rfl⟩ := h
  refine ⟨front ++ before, ob, after, by rw [List.append_assoc], fun o ho => ?_, hRefusal, ?_⟩
  · exact (List.mem_append.mp ho).elim (hMet o) (hBefore o)
  · rw [List.filterMap_append]

theorem append (h : g.StopsAt r deeds events) (more : List Deed) :
    g.StopsAt r (deeds ++ more) events := by
  obtain ⟨before, ob, after, rfl, hBefore, hRefusal, hEvents⟩ := h
  exact ⟨before, ob, after ++ more, by rw [List.append_assoc]; rfl, hBefore, hRefusal, hEvents⟩

end Graph.StopsAt

theorem Deed.mem_obligations {deeds : List Deed} :
    ob ∈ deeds.filterMap Deed.obligation? ↔ .check ob ∈ deeds := by
  rw [List.mem_filterMap]
  constructor
  · rintro ⟨deed, hDeed, hOb⟩
    cases deed with
    | check o =>
      cases hOb
      exact hDeed
    | emit | finish => cases hOb
  · intro hCheck
    exact ⟨_, hCheck, rfl⟩

def Supply.Spares (s : Supply) : Nat → List Slot → Prop
  | _, [] => True
  | k, slot :: slots => s.spare k = slot ∧ Spares s (k + 1) slots

theorem Supply.spares_append {xs ys : List Slot} :
    s.Spares k (xs ++ ys) ↔ s.Spares k xs ∧ s.Spares (k + xs.length) ys := by
  induction xs generalizing k with
  | nil => simp [Spares]
  | cons x xs ih =>
    rw [List.cons_append, Spares, Spares, ih, List.length_cons, and_assoc,
      Nat.add_right_comm, Nat.add_assoc]

namespace Node

theorem obligations_joinDeeds (result : OperandId) (joined : Slot) (parts : List OperandId) :
    (joinDeeds s label n result joined k parts).filterMap Deed.obligation? =
      (parts ++ [result]).map fun o => .node n (.operand o) := by
  induction parts generalizing joined k with
  | nil => rfl
  | cons part parts ih => exact congrArg (_ :: ·) (ih (s.spare k))

theorem obligations_deeds : (n.deeds s label k).filterMap Deed.obligation? = n.duties := by
  have hChecks (obs : List Obligation) (is : List Instr) :
      (obs.map Deed.check ++ is.map (Deed.emit label)).filterMap Deed.obligation? = obs := by
    have hNone : (is.map (Deed.emit label)).filterMap Deed.obligation? = [] := by
      rw [List.filterMap_map]
      exact List.filterMap_eq_nil_iff.mpr fun _ _ => rfl
    rw [List.filterMap_append, hNone, List.append_nil, List.filterMap_map]
    exact List.filterMap_some
  obtain ⟨action, line⟩ := n
  cases action with
  | concatList parts result =>
    cases parts with
    | nil => exact hChecks _ _
    | cons first rest =>
      rw [duties_eq, deeds]
      dsimp only
      rw [List.filterMap_cons, List.filterMap_cons]
      dsimp only [Deed.obligation?]
      rw [obligations_joinDeeds]
      simp [Action.operands, Action.targets]
  | binary | assign | constFetch | call | jump | branch | declare | echo | ret => exact hChecks _ _

theorem obligations_script :
    (script s label k nodes).filterMap Deed.obligation? = nodes.flatMap duties := by
  induction nodes generalizing k with
  | nil => rfl
  | cons n nodes ih =>
    rw [script, List.filterMap_append, obligations_deeds, ih, List.flatMap_cons]

theorem events_joinDeeds {result : OperandId} {joined : Slot} {parts : List OperandId}
    {spare : List Slot} (hLength : spare.length = parts.length) (hSpares : s.Spares k spare) :
    (joinDeeds s label n result joined k parts).filterMap Deed.event? =
      (Action.joinCode (s.slot result) joined (parts.map s.slot) spare).map (.emitted label) := by
  induction parts generalizing joined k spare with
  | nil =>
    rw [List.eq_nil_of_length_eq_zero hLength]
    rfl
  | cons part parts ih =>
    cases spare with
    | nil => cases hLength
    | cons next spare =>
      obtain ⟨rfl, hRest⟩ := hSpares
      exact congrArg (_ :: ·) (ih (Nat.succ.inj hLength) hRest)

theorem events_deeds {spare : List Slot} (hLength : spare.length = n.action.joints)
    (hSpares : s.Spares k spare) :
    (n.deeds s label k).filterMap Deed.event? =
      (n.action.code s.toPlacement spare).map (.emitted label) := by
  have hEmits (obs : List Obligation) (is : List Instr) :
      (obs.map Deed.check ++ is.map (Deed.emit label)).filterMap Deed.event? =
        is.map (.emitted label) := by
    have hNone : (obs.map Deed.check).filterMap Deed.event? = [] := by
      rw [List.filterMap_map]
      exact List.filterMap_eq_nil_iff.mpr fun _ _ => rfl
    rw [List.filterMap_append, hNone, List.nil_append, List.filterMap_map]
    exact congrFun List.filterMap_eq_map is
  obtain ⟨action, line⟩ := n
  cases action with
  | concatList parts result =>
    cases parts with
    | nil => exact hEmits _ _
    | cons first rest =>
      rw [deeds]
      dsimp only
      rw [List.filterMap_cons, List.filterMap_cons]
      exact events_joinDeeds hLength hSpares
  | binary | assign | constFetch | call | jump | branch | declare | echo | ret => exact hEmits _ _

theorem events_script {spares : List (List Slot)}
    (hLengths : spares.map List.length = nodes.map (·.action.joints))
    (hSpares : s.Spares k spares.flatten) :
    (script s label k nodes).filterMap Deed.event? =
      (codes s.toPlacement nodes spares).map (.emitted label) := by
  induction nodes generalizing k spares with
  | nil =>
    rw [codes_nil]
    rfl
  | cons n nodes ih =>
    cases spares with
    | nil => cases hLengths
    | cons spare spares =>
      obtain ⟨hLength, hLengths⟩ := List.cons.inj hLengths
      obtain ⟨hFirst, hRest⟩ := Supply.spares_append.mp hSpares
      rw [hLength] at hRest
      rw [script, codes, List.filterMap_append, events_deeds hLength hFirst, ih hLengths hRest,
        List.map_append]

end Node

namespace Lowering

open Draft

variable {α β : Type} {pass : Refusal → Refusal} {d d' d₁ : Draft} {targets : List BlockId}

/-- Between the drafts the deeds have been done up to the first check that is not met. What they
refer to is a beginning of the targets. -/
def Stops (g : Graph) (d d' : Draft) (r : Refusal) (targets : List BlockId) (k : Nat)
    (deeds : Supply → List Deed) : Prop :=
  ∃ uses refs spare new, Allots d d' uses spare ∧ Registers g d d' refs ∧ refs <+: targets ∧
    d'.events = d.events ++ new ∧
    ∀ s : Supply, d'.Agrees s.toPlacement → s.Spares k spare → g.StopsAt r (deeds s) new

namespace Stops

variable {deeds more : Supply → List Deed}

theorem here (h : ob.refusal? g = some r) (targets : List BlockId)
    (hDeeds : ∀ s, ∃ after, deeds s = .check ob :: after) : Stops g d d r targets k deeds := by
  refine ⟨[], [], [], [], .of_slots rfl rfl, .of_registered rfl, List.nil_prefix,
    (List.append_nil _).symm, fun s _ _ => ?_⟩
  obtain ⟨after, hAfter⟩ := hDeeds s
  exact hAfter ▸ .here h after

/-- The draft has advanced by some deeds, and then it stopped. -/
theorem after {uses : List OperandId} {refs : List BlockId} {spare : List Slot} {is : List Instr}
    {lines : List (Option Nat)} (h : Advance g d d₁ uses refs spare is lines)
    (hStops : Stops g d₁ d' r targets (k + spare.length) more)
    (hDeeds : ∀ s : Supply, d₁.Agrees s.toPlacement → s.Spares k spare → ∃ front,
      deeds s = front ++ more s ∧ (∀ o, .check o ∈ front → o.refusal? g = none) ∧
        front.filterMap Deed.event? = is.map (.emitted d.current.label)) :
    Stops g d d' r (refs ++ targets) k deeds := by
  obtain ⟨uses', refs', spare', new, hAllots, hRegisters, hRefs, hEvents, hStop⟩ := hStops
  refine ⟨_, _, spare ++ spare', is.map (.emitted d.current.label) ++ new, h.toAllots.trans hAllots,
    h.toRegisters.trans hRegisters, (List.prefix_append_right_inj refs).mpr hRefs, ?_, ?_⟩
  · rw [hEvents, h.events, List.append_assoc]
  · intro s hAgrees hSpares
    obtain ⟨hFirst, hLater⟩ := Supply.spares_append.mp hSpares
    obtain ⟨front, hFront, hMet, hTold⟩ :=
      hDeeds s (hAgrees.mono hAllots.slotOf hRegisters.labels) hFirst
    rw [hFront, ← hTold]
    exact (hStop s hAgrees hLater).behind hMet

theorem append (hStops : Stops g d d' r targets k deeds) (refs : List BlockId)
    (more : Supply → List Deed) : Stops g d d' r (targets ++ refs) k fun s => deeds s ++ more s := by
  obtain ⟨uses, refs', spare, new, hAllots, hRegisters, hRefs, hEvents, hStop⟩ := hStops
  exact ⟨uses, refs', spare, new, hAllots, hRegisters, hRefs.trans (List.prefix_append _ _), hEvents,
    fun s hAgrees hSpares => (hStop s hAgrees hSpares).append (more s)⟩

theorem congr (hStops : Stops g d d' r targets k deeds)
    (hSame : ∀ s : Supply, d.Agrees s.toPlacement → deeds s = more s) :
    Stops g d d' r targets k more := by
  obtain ⟨uses, refs, spare, new, hAllots, hRegisters, hRefs, hEvents, hStop⟩ := hStops
  refine ⟨uses, refs, spare, new, hAllots, hRegisters, hRefs, hEvents, fun s hAgrees hSpares => ?_⟩
  rw [← hSame s (hAgrees.mono hAllots.slotOf hRegisters.labels)]
  exact hStop s hAgrees hSpares

end Stops

/-- Where the computation is refused in a block, it stops at a check of the deeds. -/
structure StopsIn (g : Graph) (pass : Refusal → Refusal) (label : Label) (targets : List BlockId)
    (deeds : Nat → Supply → List Deed) (x : Lowering α) : Prop where
  stops : ∀ {d r d'} (k : Nat), d.Coherent → d.Resolves g → d.current.label = label →
    x d = .error r d' → Stops g d d' (pass r) targets k (deeds k)

namespace StopsIn

variable {deeds : Nat → Supply → List Deed} {x : Lowering α}

theorem of_ok (h : ∀ d, ∃ a d', x d = .ok a d') : StopsIn g pass label targets deeds x := by
  refine ⟨fun {d _ _} k _ _ _ hError => ?_⟩
  obtain ⟨a, d'', hOk⟩ := h d
  cases hOk.symm.trans hError

theorem refused (h : ob.refusal? g = some (pass r)) (more : Nat → Supply → List Deed) :
    StopsIn g pass label targets (fun k s => .check ob :: more k s) (throw r : Lowering α) := by
  refine ⟨fun k _ _ _ hError => ?_⟩
  cases hError
  exact .here h targets fun s => ⟨more k s, rfl⟩

theorem met (h : ob.refusal? g = none) (hx : StopsIn g pass label targets deeds x) :
    StopsIn g pass label targets (fun k s => .check ob :: deeds k s) x := by
  refine ⟨fun {d r d'} k hd hResolves hLabel hError => ?_⟩
  refine .after (.refl g d) (hx.stops k hd hResolves hLabel hError) fun s _ _ => ?_
  exact ⟨[.check ob], rfl, fun o ho => by cases List.mem_singleton.mp ho; exact h, rfl⟩

theorem adapt (hx : StopsIn g pass label targets deeds x) :
    StopsIn g id label targets deeds (EStateM.adaptExcept pass x) := by
  refine ⟨fun {d r d'} k hd hResolves hLabel hError => ?_⟩
  cases hResult : x d with
  | ok a t =>
    rw [Outcome.adaptExcept_of_ok hResult] at hError
    cases hError
  | error e t =>
    rw [Outcome.adaptExcept_of_error hResult] at hError
    cases hError
    exact hx.stops k hd hResolves hLabel hResult

end StopsIn

theorem lowerOperand_error {o : OperandId} (h : lowerOperand g o d = .error r d') : d' = d := by
  cases hOperand : g.operand? o with
  | none =>
    rw [lowerOperand, hOperand] at h
    cases h
    rfl
  | some operand =>
    cases operand with
    | literal l =>
      rw [lowerOperand, hOperand] at h
      dsimp only at h
      cases hValue : l.value? with
      | none =>
        rw [hValue] at h
        cases h
        rfl
      | some v =>
        rw [hValue] at h
        rcases Outcome.bind_eq_error_iff.mp h with hSlot | ⟨t, d₁, -, hUse⟩
        · rw [slotFor] at hSlot
          split at hSlot <;> cases hSlot
        · cases hUse
    | temporary name =>
      rw [lowerOperand, hOperand] at h
      rcases Outcome.bind_eq_error_iff.mp h with hSlot | ⟨t, d₁, -, hRest⟩
      · rw [slotFor] at hSlot
        split at hSlot <;> cases hSlot
      · rcases Outcome.bind_eq_error_iff.mp hRest with hUse | ⟨u, d₂, -, hReturn⟩
        · cases hUse
        · cases hReturn
    | «variable» name =>
      rw [lowerOperand, hOperand] at h
      cases h
      rfl

theorem labelFor_error {b : BlockId} (h : labelFor g b d = .error r d') : d' = d := by
  rw [labelFor] at h
  split at h
  · cases h
  · split at h <;> cases h
    rfl

section Nodes

variable {more : Nat → Supply → List Deed}

/-- The computation makes one check. If it is not met the draft stays as it is, and if it is met the
draft advances without a trace. -/
theorem check_stops (x : Lowering β) {f : β → Lowering α} (uses : List OperandId)
    (refs : List BlockId) {deeds : β → Nat → Supply → List Deed}
    (hRefused : ∀ {d r d'}, d.Resolves g → x d = .error r d' →
      d' = d ∧ ob.refusal? g = some (pass r))
    (hOk : ∀ {d a d'}, d.Coherent → d.Resolves g → x d = .ok a d' → ob.refusal? g = none ∧
      Advance g d d' uses refs [] [] [] ∧
      ∀ (k : Nat) (s : Supply), d'.Agrees s.toPlacement → more k s = deeds a k s)
    (hf : ∀ a, StopsIn g pass label targets (deeds a) (f a)) :
    StopsIn g pass label (refs ++ targets) (fun k s => .check ob :: more k s) (x >>= f) := by
  refine ⟨fun {d r d'} k hd hResolves hLabel hError => ?_⟩
  rcases Outcome.bind_eq_error_iff.mp hError with hFirst | ⟨a, d₁, hFirst, hRest⟩
  · obtain ⟨rfl, hRefusal⟩ := hRefused hResolves hFirst
    exact .here hRefusal _ fun s => ⟨_, rfl⟩
  · obtain ⟨hMet, hAdvance, hDeeds⟩ := hOk hd hResolves hFirst
    have hStops := (hf a).stops k (hAdvance.coherent hd) (hAdvance.exist hResolves)
      (hAdvance.label.trans hLabel) hRest
    refine Stops.after hAdvance hStops fun s hAgrees _ => ⟨[.check ob], ?_, fun o ho => ?_, rfl⟩
    · rw [hDeeds k s hAgrees]
      rfl
    · cases List.mem_singleton.mp ho
      exact hMet

theorem operand_stops (n : Node) (o : OperandId) {f : Slot → Lowering α}
    {deeds : Slot → Nat → Supply → List Deed}
    (hf : ∀ slot, StopsIn g (Refusal.orLine n.line) label targets (deeds slot) (f slot)) :
    StopsIn g (Refusal.orLine n.line) label targets
      (fun k s => .check (.node n (.operand o)) :: deeds (s.slot o) k s)
      (lowerOperand g o >>= f) := by
  have hMeets := lowerOperand_meets (g := g) n o
  refine check_stops (lowerOperand g o) [o] [] (fun hResolves h => ⟨lowerOperand_error h, ?_⟩)
    (fun hd hResolves h => ?_) hf
  · have hRefusal := hMeets.error hResolves h
    rwa [List.findSome?_singleton] at hRefusal
  · obtain ⟨hMem, hAdvance⟩ := lowerOperand_ok hd h
    obtain ⟨hMet, -⟩ := hMeets.ok hResolves h
    refine ⟨hMet _ List.mem_cons_self, hAdvance, fun k s hAgrees => ?_⟩
    have hSlot : s.slot o = _ := hAgrees.slot _ hMem
    rw [hSlot]

theorem target_stops (n : Node) (b : BlockId) {f : Label → Lowering α}
    {deeds : Nat → Supply → List Deed}
    (hf : ∀ l, StopsIn g (Refusal.orLine n.line) label targets deeds (f l)) :
    StopsIn g (Refusal.orLine n.line) label (b :: targets)
      (fun k s => .check (.node n (.block b)) :: deeds k s) (labelFor g b >>= f) := by
  have hMeets := target_meets (g := g) n b
  refine check_stops (labelFor g b) [] [b] (fun hResolves h => ⟨labelFor_error h, ?_⟩)
    (fun hd hResolves h => ?_) hf
  · have hRefusal := hMeets.error hResolves h
    rwa [List.findSome?_singleton] at hRefusal
  · obtain ⟨-, hAdvance⟩ := labelFor_ok h
    obtain ⟨hMet, -⟩ := hMeets.ok hResolves h
    exact ⟨hMet _ List.mem_cons_self, hAdvance, fun k s hAgrees => rfl⟩

theorem emit_stops (i : Instr) (line : Option Nat) {deeds : Nat → Supply → List Deed} :
    StopsIn g pass label targets deeds (emit i line) := .of_ok fun _ => ⟨_, _, rfl⟩

theorem joint_stops (joined right : Slot) (line : Option Nat) {f : Slot → Lowering α}
    {deeds : Slot → Nat → Supply → List Deed}
    (hf : ∀ next, StopsIn g pass label targets (deeds next) (f next)) :
    StopsIn g pass label targets
      (fun k s => .emit label (.binary .concat (s.spare k) joined right) ::
        deeds (s.spare k) (k + 1) s)
      (do
        let next ← freshSlot
        emit (.binary .concat next joined right) line
        f next) := by
  refine ⟨fun {d r d'} k hd hResolves hLabel hError => ?_⟩
  rcases Outcome.bind_eq_error_iff.mp hError with hFresh | ⟨next, d₁, hFresh, hRest⟩
  · cases hFresh
  · rcases Outcome.bind_eq_error_iff.mp hRest with hEmit | ⟨u, d₂, hEmit, hRest⟩
    · cases hEmit
    · have hFirst : Advance g d d₁ [] [] [next] [] [] := freshSlot_ok hFresh
      have hSecond : Advance g d₁ d₂ [] [] [] [_] [line] := emit_ok hEmit
      have hPast := hFirst.trans hSecond
      have hStops := (hf next).stops (k + 1) (hPast.coherent hd) (hPast.exist hResolves)
        (hPast.label.trans hLabel) hRest
      refine Stops.after hPast hStops fun s _ hSpares => ?_
      obtain ⟨rfl, -⟩ := hSpares
      refine ⟨[.emit label (.binary .concat (s.spare k) joined right)], rfl, fun ob hOb => ?_, ?_⟩
      · cases List.mem_singleton.mp hOb
      · rw [hLabel]
        rfl

theorem lowerParts_stops (n : Node) (line : Option Nat) (result : OperandId) (joined : Slot)
    (parts : List OperandId) {f : Slot → Lowering α}
    (hf : ∀ last, StopsIn g (Refusal.orLine n.line) label targets
      (fun k s => Node.joinDeeds s label n result last k []) (f last)) :
    StopsIn g (Refusal.orLine n.line) label targets
      (fun k s => Node.joinDeeds s label n result joined k parts)
      (lowerParts g line joined parts >>= f) := by
  induction parts generalizing joined with
  | nil =>
    rw [lowerParts, pure_bind]
    exact hf joined
  | cons part parts ih =>
    simp only [lowerParts, bind_assoc]
    exact operand_stops n part fun right => joint_stops joined right line fun next => ih next

theorem lookup_stops (n : Node) (o : OperandId) {f : Slot → Lowering α}
    {deeds : Nat → Supply → List Deed}
    (hf : ∀ slot, StopsIn g (Refusal.orLine n.line) label targets deeds (f slot)) :
    StopsIn g (Refusal.orLine n.line) label targets
      (fun k s => .check (.node n (.operand o)) :: deeds k s) (lowerOperand g o >>= f) :=
  operand_stops n o hf

/-- A node that is refused stops at one of its checks. Unless it joins a list, it has added no
instruction before. -/
theorem lowerNode_stops (n : Node) : StopsIn g (Refusal.orLine n.line) label n.action.targets
    (fun k s => n.deeds s label k) (lowerNode g n) := by
  have hSupported {x : Lowering Unit} {deeds : Nat → Supply → List Deed}
      (h : n.action.supported = true)
      (hx : StopsIn g (Refusal.orLine n.line) label n.action.targets deeds x) :
      StopsIn g (Refusal.orLine n.line) label n.action.targets
        (fun k s => .check (.node n .supported) :: deeds k s) x :=
    .met (Node.kindRefusal?_eq_none_iff.mpr h) hx
  have hRefused {r : Refusal} (h : n.kindRefusal? = some r) (hLine : r.line? = n.line)
      (deeds : Nat → Supply → List Deed) :
      StopsIn g (Refusal.orLine n.line) label n.action.targets
        (fun k s => .check (.node n .supported) :: deeds k s) (throw r : Lowering Unit) := by
    apply StopsIn.refused
    rw [← hLine, Refusal.orLine_line?]
    exact h
  obtain ⟨action, line⟩ := n
  cases action with
  | binary op left right result =>
    rw [lowerNode]
    dsimp only
    cases hOp : op.operator? with
    | none => exact hRefused (by simp [Node.kindRefusal?, hOp]) rfl _
    | some operator =>
      refine hSupported (by simp [Action.supported, hOp]) (lookup_stops _ result fun s₁ => ?_)
      refine lookup_stops _ left fun s₂ => lookup_stops _ right fun s₃ => ?_
      exact emit_stops _ line
  | assign var expr result =>
    refine hSupported rfl (lookup_stops _ result fun s₁ => ?_)
    refine lookup_stops _ var fun s₂ => lookup_stops _ expr fun s₃ => ?_
    exact emit_stops _ line
  | concatList parts result =>
    cases parts with
    | nil => exact hRefused rfl rfl _
    | cons first rest =>
      exact hSupported rfl (operand_stops _ first fun joined =>
        lowerParts_stops _ line result joined rest fun last =>
          lookup_stops _ result fun s => emit_stops _ line)
  | constFetch name qualified result =>
    refine hSupported rfl (lookup_stops _ result fun s₁ => lookup_stops _ name fun s₂ => ?_)
    cases qualified with
    | none => exact emit_stops _ line
    | some o =>
      rw [Option.mapM_some, map_eq_pure_bind, bind_assoc]
      refine lookup_stops _ o fun s₃ => ?_
      rw [pure_bind]
      exact emit_stops _ line
  | call name args result => exact hRefused rfl rfl _
  | jump target =>
    exact hSupported rfl (target_stops _ target fun l => emit_stops _ line)
  | branch cond ifTrue ifFalse =>
    refine hSupported rfl (lookup_stops _ cond fun s => ?_)
    exact target_stops _ ifTrue fun l₁ => target_stops _ ifFalse fun l₂ => emit_stops _ line
  | declare kind name => exact hRefused rfl rfl _
  | echo expr => exact hSupported rfl (lookup_stops _ expr fun s => emit_stops _ line)
  | ret expr => exact hRefused rfl rfl _

theorem lowerNodes_stops (nodes : List Node) : StopsIn g id label (Node.targets nodes)
    (fun k s => Node.script s label k nodes) (lowerNodes g nodes) := by
  induction nodes with
  | nil => exact .of_ok fun d => ⟨(), d, rfl⟩
  | cons n nodes ih =>
    refine ⟨fun {d r d'} k hd hResolves hLabel hError => ?_⟩
    rcases Outcome.bind_eq_error_iff.mp hError with hNode | ⟨u, d₁, hNode, hRest⟩
    · have hStops := (lowerNode_stops n).adapt.stops k hd hResolves hLabel hNode
      exact hStops.append (Node.targets nodes) fun s =>
        Node.script s label (k + n.action.joints) nodes
    · obtain ⟨hMet, -⟩ := (lowerNode_meets n).adapt.ok hResolves hNode
      obtain ⟨-, spare, is, hLength, hAdvance, hCode⟩ :=
        lowerNode_ok hd (Outcome.adaptExcept_eq_ok_iff.mp hNode)
      have hStops := ih.stops (k + spare.length) (hAdvance.coherent hd) (hAdvance.exist hResolves)
        (hAdvance.label.trans hLabel) hRest
      refine Stops.after hAdvance hStops fun s hAgrees hSpares => ?_
      refine ⟨n.deeds s label k, by rw [Node.script, hLength], fun ob hOb => ?_, ?_⟩
      · rw [← Deed.mem_obligations, Node.obligations_deeds] at hOb
        exact hMet ob hOb
      · rw [Node.events_deeds hLength hSpares, ← hCode s.toPlacement hAgrees, hLabel]

theorem lowerBlock_stops {b : BlockId} (k : Nat) (hResolves : d.Resolves g)
    (hExists : (g.block? b).isSome = true) (h : lowerBlock g label b d = .error r d') :
    Stops g d d' r (Node.targets (g.nodes b)) k fun s => Node.script s label k (g.nodes b) := by
  obtain ⟨nodes, hBlock⟩ := Option.isSome_iff_exists.mp hExists
  rcases Outcome.bind_eq_error_iff.mp h with hBegin | ⟨u, d₁, hBegin, h⟩
  · cases hBegin
  · cases hBegin
    rw [hBlock] at h
    rcases Outcome.bind_eq_error_iff.mp h with hNodes | ⟨u, d₂, -, hFinish⟩
    · have hCoherent : Draft.Coherent { d with current := { label, origin := b } } :=
        fun _ hc => nomatch hc
      obtain ⟨uses, refs, spare, new, hAllots, hRegisters, hRefs, hEvents, hStop⟩ :=
        (lowerNodes_stops nodes).stops k hCoherent hResolves rfl hNodes
      rw [Graph.nodes_eq hBlock]
      exact ⟨uses, refs, spare, new, ⟨hAllots.keys, hAllots.slotOf, hAllots.allotted⟩,
        ⟨hRegisters.registered, hRegisters.exist⟩, hRefs, hEvents, hStop⟩
    · cases hFinish

end Nodes

end Lowering

end BlockMachine
