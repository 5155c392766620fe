import BlockMachine.Proofs.Lowering.Allocation
import BlockMachine.Proofs.Lowering.Joining
import BlockMachine.Proofs.Lowering.Stage
import BlockMachine.Proofs.Machine.Transition

/-!
# What a chain leaves behind
The instructions that lowering adds for a list, run on any scope that has their slots: the result's
slot holds the join of what the parts held before, and no other operand notices. Every slot a part
or a later operand has is apart from the partial results, since those are spared.
-/

namespace BlockMachine
set_option autoImplicit false

namespace Machine

variable {p : Program} {limits : Limits} {s : State} {a : Activation} {b : CodeBlock}
  {constants other : Constants} {is more : List Instr} {before after : Scope}

theorem step_writes {i : Instr} {writes : List (Slot × Value)} {texts : List String}
    (hAt : s.At p a b (some i)) (hLimit : overLimit limits (s.steps + 1) = none)
    (hEffect : i.effect s.host.constants a.scope [] = .ok (.store writes) texts)
    (hWrite : a.scope.writeAll writes = .ok after) :
    ∃ t, step p limits s = .next t ∧ t.running = some { a with scope := after, pc := a.pc + 1 } ∧
      t.host = s.host ∧ t.steps = s.steps + 1 := by
  refine ⟨{ (s.count a i).warn texts with
    running := some { a with scope := after, pc := a.pc + 1 } }, ?_, rfl, rfl, rfl⟩
  rw [step_at hAt, execute_of_ok hLimit hEffect, perform, hWrite]

theorem Quiet.carried (hQuiet : Quiet constants is before after)
    (hConstants : s.host.constants = constants) (hRunning : s.running = some a)
    (hScope : a.scope = before) (hBlock : p.block? a.code = some b)
    (hCode : b.instrs.drop a.pc = is ++ more)
    (hLimit : overLimit limits (s.steps + is.length) = none) :
    ∃ t, Passes p limits is.length s t ∧
      t.running = some { a with scope := after, pc := a.pc + is.length } ∧ t.host = s.host := by
  induction hQuiet generalizing s a with
  | nil =>
    subst hScope
    exact ⟨s, .refl s, hRunning, rfl⟩
  | @cons i is writes before scope after hEffect hWrite _ ih =>
    subst hScope hConstants
    obtain ⟨hInstr, hRest⟩ := instr_of_drop hCode
    have hSteps : s.steps + (i :: is).length = s.steps + 1 + is.length := by
      rw [List.length_cons, Nat.add_assoc, Nat.add_comm 1]
    rw [hSteps] at hLimit
    have hFirst : overLimit limits (s.steps + 1) = none :=
      overLimit_mono (Nat.le_add_right _ _) hLimit
    obtain ⟨t, hStep, hNext, hHost, hCount⟩ :=
      step_writes ⟨hRunning, hBlock, hInstr⟩ hFirst hEffect hWrite
    obtain ⟨u, hPasses, hLater, hLast⟩ :=
      ih (congrArg Host.constants hHost) hNext rfl hBlock hRest (hCount ▸ hLimit)
    refine ⟨u, .head hStep hPasses, ?_, hLast.trans hHost⟩
    rw [hLater, List.length_cons, Nat.add_assoc, Nat.add_comm 1]

theorem Quiet.congr (hQuiet : Quiet constants is before after)
    (hSame : ∀ i ∈ is, ∀ scope, i.effect other scope = i.effect constants scope) :
    Quiet other is before after := by
  induction hQuiet with
  | nil => exact .nil _
  | cons hEffect hWrite _ ih =>
    obtain ⟨hHead, hTail⟩ := List.forall_mem_cons.mp hSame
    exact .cons (by rw [hHead, hEffect]) hWrite (ih hTail)

theorem Quiet.takes (hQuiet : Quiet constants is before after)
    (hSame : ∀ other, ∀ i ∈ is, ∀ scope, i.effect other scope = i.effect constants scope) :
    Takes is before after :=
  fun _ _ _ _ _ _ hRunning hScope hBlock hCode hLimit =>
    (hQuiet.congr (hSame _)).carried rfl hRunning hScope hBlock hCode hLimit

end Machine

theorem Value.joined_cons (first : Value) (rest : List Value) :
    Value.joined (first :: rest) = first.join rest := by
  cases rest with
  | nil => rfl
  | cons next rest => exact (Value.join_cons first next rest).symm

namespace Action

theorem exists_joints {parts spare : List Slot} (result joined : Slot)
    (hLength : spare.length = parts.length) : ∃ joints last,
      joinCode result joined parts spare = joints ++ [.assign result result last] ∧
      joints.length = parts.length ∧
      ∀ i ∈ joints, ∃ next left right, i = .binary .concat next left right := by
  induction parts generalizing joined spare with
  | nil =>
    rw [List.eq_nil_of_length_eq_zero hLength]
    exact ⟨[], joined, rfl, rfl, fun _ hi => (List.not_mem_nil hi).elim⟩
  | cons part parts ih =>
    cases spare with
    | nil => cases hLength
    | cons next spare =>
      obtain ⟨joints, last, hCode, hJoints, hConcat⟩ := ih next (Nat.succ.inj hLength)
      refine ⟨.binary .concat next joined part :: joints, last, ?_, congrArg (· + 1) hJoints, ?_⟩
      · rw [joinCode, hCode, List.cons_append]
      · exact List.forall_mem_cons.mpr ⟨⟨next, joined, part, rfl⟩, hConcat⟩

/-- The chain on a scope that has room for all slots it names. -/
theorem joinCode_takes {scope : Scope} {result first : Slot} {rest spare : List Slot}
    (hLength : spare.length = rest.length)
    (hRoom : ∀ i ∈ joinCode result first rest spare, ∀ s ∈ i.slots, s < scope.size)
    (hApart : ∀ s ∈ rest, s ∉ spare) (hNodup : spare.Nodup) :
    ∃ values after, (first :: rest).map (scope[·]?) = values.map some ∧
      Machine.Takes (joinCode result first rest spare) scope after ∧
      after[result]? = some (Value.joined values) ∧
      ∀ s, s ≠ result → s ∉ spare → after[s]? = scope[s]? := by
  have hNamed (s : Slot) (hs : s = result ∨ s = first ∨ s ∈ rest ∨ s ∈ spare) :
      s < scope.size := by
    obtain ⟨i, hi, hSlot⟩ := mem_slots_joinCode hLength hs
    exact hRoom i hi s hSlot
  obtain ⟨x, hFirst⟩ : ∃ x, scope[first]? = some x :=
    ⟨_, Array.getElem?_eq_getElem (hNamed first (.inr (.inl rfl)))⟩
  obtain ⟨values, hValues⟩ : ∃ values : List Value, rest.map (scope[·]?) = values.map some := by
    refine ⟨rest.map fun s => scope[s]?.getD .unknown, ?_⟩
    rw [List.map_map]
    refine List.map_congr_left fun s hs => ?_
    have hHeld := Array.getElem?_eq_getElem (hNamed s (.inr (.inr (.inl hs))))
    rw [Function.comp_apply, hHeld, Option.getD_some]
  obtain ⟨after, hQuiet, -, hResult, hOther⟩ := joinCode_quiet {} hLength
    (hNamed result (.inl rfl)) hFirst hValues hApart hNodup
    fun s hs => hNamed s (.inr (.inr (.inr hs)))
  refine ⟨x :: values, after, ?_, hQuiet.takes fun other i hi scope => ?_, ?_, hOther⟩
  · rw [List.map_cons, List.map_cons, hFirst, hValues]
  · obtain ⟨joints, last, hCode, -, hConcat⟩ := exists_joints result first hLength
    rw [hCode, List.mem_append, List.mem_singleton] at hi
    rcases hi with hi | rfl
    · obtain ⟨next, left, right, rfl⟩ := hConcat i hi
      rfl
    · rfl
  · rw [hResult, Value.joined_cons]

end Action

namespace Lowering

open Draft

variable {g : Graph} {d d' : Draft} {line : Option Nat} {parts : List OperandId}
  {result : OperandId}

/-- Of a list of `n` parts lowering makes `n - 1` joints and a store, and makes constants of its
literals for the slots they are read from. Run on a scope with room for them, they leave in the
result's slot the text of what the parts held before, or what a single part held as it was. No other
operand's slot changes, not even of one that has not come up yet, and the result may be among the
parts. -/
theorem lowerConcatList_chain (hReached : Reached g d)
    (h : lowerConcatList g line parts result d = .ok () d') :
    ∃ joints last slot,
      d'.current.instrs = d.current.instrs ++ (joints ++ [.assign slot slot last]) ∧
      joints.length + 1 = parts.length ∧
      (∀ i ∈ joints, ∃ next left right, i = .binary .concat next left right) ∧
      (∀ o ∈ parts, ∀ v, g.literal? o = some v →
        ∃ s, d'.slotOf.lookup o = some s ∧ ⟨o, s, v⟩ ∈ d'.current.constants) ∧
      ∀ scope : Scope,
        (∀ i ∈ joints ++ [.assign slot slot last], ∀ s ∈ i.slots, s < scope.size) →
        ∃ values after, parts.map (d'.read? scope) = values.map some ∧
          Machine.Takes (joints ++ [.assign slot slot last]) scope after ∧
          d'.read? after result = some (Value.joined values) ∧
          ∀ d'', Later g d' d'' → ∀ o s, d''.slotOf.lookup o = some s → o ≠ result →
            after[s]? = scope[s]? := by
  obtain ⟨given, hTidy⟩ := hReached.exists_tidy
  obtain ⟨hParts, spare, is, hLength, hAdvance, hCode⟩ := lowerConcatList_ok hTidy.coherent h
  have hTidy' := hTidy.advance hAdvance
  obtain ⟨pl, hAgrees⟩ : ∃ pl, d'.Agrees pl := ⟨_, hTidy'.agrees_supply⟩
  have hLookup (o : OperandId) (ho : o ∈ parts ++ [result]) :
      d'.slotOf.lookup o = some (pl.slot o) := by
    refine hTidy'.lookup_of_agrees hAgrees ?_
    rw [hAdvance.keys, mem_foldl_enlist]
    exact .inr ho
  cases parts with
  | nil => exact absurd rfl hParts
  | cons first rest =>
    rw [hCode pl hAgrees, Action.code] at hAdvance
    have hRest : spare.length = (rest.map pl.slot).length := by
      rw [List.length_map]
      exact hLength
    obtain ⟨joints, last, hChain, hJoints, hConcat⟩ :=
      Action.exists_joints (pl.slot result) (pl.slot first) hRest
    have hFirst (o : OperandId) (ho : o ∈ first :: rest) := hLookup o (List.mem_append_left _ ho)
    have hResult := hLookup result (List.mem_append_right _ List.mem_cons_self)
    have hInstrs := hAdvance.instrs
    rw [hChain] at hInstrs
    refine ⟨joints, last, pl.slot result, hInstrs, ?_, hConcat, fun o ho v hv => ?_,
      fun scope hRoom => ?_⟩
    · rw [hJoints, List.length_map, List.length_cons]
    · have hUse := List.mem_append_left [result] ho
      exact ⟨pl.slot o, hFirst o ho, hTidy.constant_of_use hAdvance hAgrees hUse hv⟩
    · have hNodup := (List.nodup_append.mp hTidy'.nodup_spare).2.1
      have hApart : ∀ s ∈ rest.map pl.slot, s ∉ spare := by
        intro s hs hSpare
        obtain ⟨o, ho, rfl⟩ := List.mem_map.mp hs
        exact hTidy'.not_spared (hFirst o (List.mem_cons_of_mem _ ho))
          (List.mem_append_right _ hSpare)
      rw [← hChain] at hRoom ⊢
      obtain ⟨values, after, hValues, hTakes, hJoined, hOther⟩ :=
        Action.joinCode_takes hRest hRoom hApart hNodup
      refine ⟨values, after, ?_, hTakes, ?_, fun d'' hLater o s ho hNe => ?_⟩
      · rw [← hValues, ← List.map_cons, List.map_map]
        refine List.map_congr_left fun o ho => ?_
        rw [Draft.read?, hFirst o ho]
        rfl
      · rw [Draft.read?, hResult, Option.bind_some, hJoined]
      · obtain ⟨more, hTidy'', hSlots⟩ := hLater.tidy hTidy'
        refine hOther s (fun hEq => ?_) fun hSpare => ?_
        · subst hEq
          exact hNe (hTidy''.eq_of_lookup ho (hTidy''.lookup_of_extends hSlots hResult))
        · exact hTidy''.not_spared ho
            (List.mem_append_left _ (List.mem_append_right _ hSpare))

end Lowering

/-- A list that begins and ends with its own result. -/
def Graph.chant : Graph where
  operands := [.temporary (some "verse"), .literal (.string "la")]
  blocks := [[⟨.echo ⟨0⟩, some 1⟩, ⟨.concatList [⟨0⟩, ⟨1⟩, ⟨0⟩] ⟨0⟩, some 2⟩]]

namespace Draft

def chant : Draft where
  registered := [⟨0⟩]
  current := {
    label := ⟨0⟩, origin := ⟨0⟩, instrs := [.echo 0], lines := [some 1]
    slots := .ofList [(⟨0⟩, 0)] }
  slotOf := [(⟨0⟩, 0)]
  nextSlot := 1
  events := [.emitted ⟨0⟩ (.echo 0)]

def chantJoined : Draft where
  registered := [⟨0⟩]
  current := {
    label := ⟨0⟩, origin := ⟨0⟩
    instrs := [.echo 0, .binary .concat 2 0 1, .binary .concat 3 2 0, .assign 0 0 3]
    lines := [some 1, some 2, some 2, some 2]
    slots := .ofList [(⟨0⟩, 0)]
    constants := [⟨⟨1⟩, 1, .ofString "la"⟩] }
  slotOf := [(⟨0⟩, 0), (⟨1⟩, 1)]
  nextSlot := 4
  events := [.emitted ⟨0⟩ (.echo 0), .emitted ⟨0⟩ (.binary .concat 2 0 1),
    .emitted ⟨0⟩ (.binary .concat 3 2 0), .emitted ⟨0⟩ (.assign 0 0 3)]

end Draft

namespace Lowering

theorem reached_chant : Reached .chant .chant :=
  .head (.label (rfl : labelFor .chant ⟨0⟩ _ = _)) <|
    .head (.start (rfl : beginBlock ⟨0⟩ ⟨0⟩ _ = _)) <|
    .head (.operand (rfl : lowerOperand .chant ⟨0⟩ _ = _)) <|
    .single (.emit (rfl : emit (.echo 0) (some 1) _ = _))

theorem lowerConcatList_chain_chant :
    lowerConcatList .chant (some 2) [⟨0⟩, ⟨1⟩, ⟨0⟩] ⟨0⟩ .chant = .ok () .chantJoined ∧
    ∃ after, Machine.Takes [.binary .concat 2 0 1, .binary .concat 3 2 0, .assign 0 0 3]
        #[.integer 5, .ofString "la", .unknown, .unknown] after ∧
      Draft.chantJoined.read? after ⟨0⟩ = some (.ofString "5la5") := by
  have hLower : lowerConcatList .chant (some 2) [⟨0⟩, ⟨1⟩, ⟨0⟩] ⟨0⟩ .chant =
      .ok () .chantJoined := rfl
  obtain ⟨joints, last, slot, hInstrs, -, -, -, hRun⟩ :=
    lowerConcatList_chain reached_chant hLower
  have hChain : _ = joints ++ [.assign slot slot last] := List.tail_eq_of_cons_eq hInstrs
  rw [← hChain] at hRun
  obtain ⟨values, after, hValues, hTakes, hJoined, -⟩ :=
    hRun #[.integer 5, .ofString "la", .unknown, .unknown] (by decide)
  have hHeld : [.integer 5, .ofString "la", .integer 5] = values :=
    (List.map_inj_right fun _ _ => Option.some.inj).mp hValues
  refine ⟨hLower, after, hTakes, ?_⟩
  rw [hJoined, ← hHeld]
  decide +kernel

end Lowering

end BlockMachine
