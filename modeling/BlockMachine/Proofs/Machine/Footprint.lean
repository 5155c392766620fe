import BlockMachine.Machine.Footprint
import BlockMachine.Proofs.Machine.Atop
import BlockMachine.Proofs.Machine.Safety

/-!
# What a step touches
An instruction that the machine goes on from has changed the slots it writes, or has handed its
scope over to another block, and nothing else. Only an echo writes output, and nothing defines
constants.
-/

namespace BlockMachine
set_option autoImplicit false

variable {constants : Constants} {scope after : Scope} {texts ws ws' : List String} {v : Value}

section Reading

variable {slot : Slot}

theorem Scope.read_eq_ok (h : Scope.read scope slot ws = .ok v ws') : scope[slot]? = some v := by
  rw [Scope.read] at h
  cases hValue : scope[slot]? with
  | some w =>
    rw [hValue] at h
    cases h
    rfl
  | none =>
    rw [hValue] at h
    cases h

theorem Eval.int_eq_ok {mnemonic : String} {n : Int64}
    (h : Eval.int (Scope.read scope) mnemonic slot ws = .ok n ws') :
    ∃ v r, scope[slot]? = some v ∧ v.toInt = .ok r ∧ r.value = n := by
  obtain ⟨v, ws₁, hRead, hRest⟩ := Outcome.bind_eq_ok_iff.mp h
  refine ⟨v, ?_⟩
  cases hInt : v.toInt with
  | ok r =>
    rw [hInt] at hRest
    cases hRest
    exact ⟨r, Scope.read_eq_ok hRead, rfl, rfl⟩
  | error reason =>
    rw [hInt] at hRest
    cases hRest

theorem Eval.name_eq_ok {text : String} (h : Eval.name (Scope.read scope) slot ws = .ok text ws') :
    ∃ v, scope[slot]? = some v ∧ v.display = text := by
  obtain ⟨v, ws₁, hRead, hRest⟩ := Outcome.bind_eq_ok_iff.mp h
  cases hRest
  exact ⟨v, Scope.read_eq_ok hRead, rfl⟩

end Reading

theorem Operator.ints_eq_ok {op : Operator} {left right : Slot}
    {next : Int64 → Int64 → Eval Slot Value}
    (h : (do
      let m ← Eval.int (Scope.read scope) op.mnemonic left
      let n ← Eval.int (Scope.read scope) op.mnemonic right
      next m n : Eval Slot Value) ws = .ok v ws') :
    ∃ l r m n ws₂, scope[left]? = some l ∧ scope[right]? = some r ∧ l.toInt = .ok m ∧
      r.toInt = .ok n ∧ next m.value n.value ws₂ = .ok v ws' := by
  obtain ⟨_, ws₁, hLeft, hRest⟩ := Outcome.bind_eq_ok_iff.mp h
  obtain ⟨_, ws₂, hRight, hNext⟩ := Outcome.bind_eq_ok_iff.mp hRest
  obtain ⟨l, m, hl, hm, rfl⟩ := Eval.int_eq_ok hLeft
  obtain ⟨r, n, hr, hn, rfl⟩ := Eval.int_eq_ok hRight
  exact ⟨l, r, m, n, ws₂, hl, hr, hm, hn, hNext⟩

/-- Whatever slots the operands are in, the result is that of the values they hold. -/
theorem Operator.eval_eq_ok {op : Operator} {left right : Slot}
    (h : op.eval (Scope.read scope) left right ws = .ok v ws') :
    ∃ l r, scope[left]? = some l ∧ scope[right]? = some r ∧ op.value? l r = some v := by
  cases op with
  | concat | equal | notEqual =>
    obtain ⟨l, ws₁, hLeft, hRest⟩ := Outcome.bind_eq_ok_iff.mp h
    obtain ⟨r, ws₂, hRight, hResult⟩ := Outcome.bind_eq_ok_iff.mp hRest
    cases hResult
    exact ⟨l, r, Scope.read_eq_ok hLeft, Scope.read_eq_ok hRight, rfl⟩
  | arithmetic f =>
    obtain ⟨l, r, m, n, ws₂, hl, hr, hm, hn, hResult⟩ := ints_eq_ok h
    refine ⟨l, r, hl, hr, ?_⟩
    rw [value?, hm, hn]
    cases hApply : f.apply m.value n.value with
    | some k =>
      rw [hApply] at hResult
      cases hResult
      simp only [Except.toOption, Option.bind_eq_bind, Option.bind_some, hApply]
      rfl
    | none =>
      rw [hApply] at hResult
      cases hResult
  | comparison f =>
    obtain ⟨l, r, m, n, ws₂, hl, hr, hm, hn, hResult⟩ := ints_eq_ok h
    cases hResult
    refine ⟨l, r, hl, hr, ?_⟩
    rw [value?, hm, hn]
    rfl

theorem Eval.names_eq_ok {qualified : Option Slot} {other : Option String}
    (h : qualified.mapM (Eval.name (Scope.read scope)) ws = .ok other ws') :
    other = qualified.bind fun q => (scope[q]?).map Value.display := by
  cases qualified with
  | none =>
    cases h
    rfl
  | some q =>
    obtain ⟨text, ws₁, hName, hSome⟩ := Outcome.bind_eq_ok_iff.mp h
    obtain ⟨v, hv, rfl⟩ := Eval.name_eq_ok hName
    cases hSome
    rw [Option.bind_some, hv, Option.map_some]

theorem Instr.value?_constFetch {name : Slot} (hName : scope[name]? = some v) (result : Slot)
    (qualified : Option Slot) :
    (Instr.constFetch result name qualified).value? constants scope =
      ((qualified.bind fun q => (scope[q]?).map Value.display).bind constants.lookup <|>
        constants.lookup v.display) := by
  simp only [value?, Option.bind_eq_bind, hName, Option.bind_some, Option.bind_assoc,
    Option.bind_map, Function.comp_def]

theorem fetchConstant_eq_ok {name : Slot} {qualified : Option Slot}
    (h : fetchConstant constants.lookup (Scope.read scope) name qualified ws = .ok v ws')
    (result : Slot) : (Instr.constFetch result name qualified).value? constants scope = some v := by
  obtain ⟨text, ws₁, hName, hRest⟩ := Outcome.bind_eq_ok_iff.mp h
  obtain ⟨other, ws₂, hQualified, hResult⟩ := Outcome.bind_eq_ok_iff.mp hRest
  obtain ⟨w, hw, rfl⟩ := Eval.name_eq_ok hName
  rw [Instr.value?_constFetch hw, ← Eval.names_eq_ok hQualified]
  cases hFound : other.bind constants.lookup <|> constants.lookup w.display with
  | some found =>
    rw [hFound] at hResult
    cases hResult
    rfl
  | none =>
    rw [hFound] at hResult
    cases hResult

/-- What an effect is of: one value stored in all written slots, the text of a slot put out, or the
destination. -/
def Effect.IsOf (constants : Constants) (scope : Scope) (i : Instr) : Effect Slot Label → Prop
  | .store writes => ∃ v, i.value? constants scope = some v ∧ writes = i.written.map (·, v)
  | .output bytes => ∃ slot v, i = .echo slot ∧ scope[slot]? = some v ∧ bytes = v.toBytes
  | .transfer target => target ∈ i.targets ∧ i.destination? scope = some target

theorem Instr.targets_of_value? {i : Instr} (h : i.value? constants scope = some v) :
    i.targets = [] := by
  cases i with
  | jump target | branch cond ifTrue ifFalse => cases h
  | _ => rfl

theorem Instr.effect_eq_ok {i : Instr} {effect : Effect Slot Label}
    (h : i.effect constants scope ws = .ok effect texts) : effect.IsOf constants scope i := by
  cases i with
  | echo slot =>
    obtain ⟨v, ws₁, hRead, hRest⟩ := Outcome.bind_eq_ok_iff.mp h
    cases hRest
    exact ⟨slot, v, rfl, Scope.read_eq_ok hRead, rfl⟩
  | assign result var expr =>
    obtain ⟨v, ws₁, hRead, hRest⟩ := Outcome.bind_eq_ok_iff.mp h
    cases hRest
    exact ⟨v, Scope.read_eq_ok hRead, rfl⟩
  | binary op result left right =>
    obtain ⟨v, ws₁, hEval, hRest⟩ := Outcome.bind_eq_ok_iff.mp h
    cases hRest
    obtain ⟨l, r, hl, hr, hv⟩ := Operator.eval_eq_ok hEval
    refine ⟨v, ?_, rfl⟩
    simp only [value?, hl, hr, Option.bind_eq_bind, Option.bind_some, hv]
  | constFetch result name qualified =>
    obtain ⟨v, ws₁, hFetch, hRest⟩ := Outcome.bind_eq_ok_iff.mp h
    cases hRest
    exact ⟨v, fetchConstant_eq_ok hFetch result, rfl⟩
  | jump target =>
    cases h
    exact ⟨List.mem_singleton_self target, rfl⟩
  | branch cond ifTrue ifFalse =>
    obtain ⟨v, ws₁, hRead, hRest⟩ := Outcome.bind_eq_ok_iff.mp h
    cases hRest
    constructor
    · cases v.toBool <;> simp [targets]
    · simp only [destination?, Scope.read_eq_ok hRead, Option.bind_eq_bind, Option.bind_some]
      rfl

theorem Scope.writes_of_writeAll {slots : List Slot}
    (h : scope.writeAll (slots.map (·, v)) = .ok after) : scope.Writes slots (some v) after := by
  induction slots generalizing scope with
  | nil =>
    cases h
    exact ⟨rfl, fun s hs => absurd hs List.not_mem_nil, fun _ _ => rfl⟩
  | cons slot slots ih =>
    rw [List.map_cons, writeAll, Scope.write] at h
    split at h
    · rename_i hLt
      obtain ⟨hSize, hWritten, hKept⟩ := ih h
      refine ⟨hSize.trans Array.size_setIfInBounds, fun s hs => ⟨v, rfl, ?_⟩, fun s hs => ?_⟩
      · by_cases hLater : s ∈ slots
        · obtain ⟨w, hw, hs⟩ := hWritten s hLater
          cases hw
          exact hs
        · rw [hKept s hLater, (List.mem_cons.mp hs).resolve_right hLater]
          exact Array.getElem?_setIfInBounds_self_of_lt hLt
      · obtain ⟨hNe, hLater⟩ := not_or.mp (mt List.mem_cons.mpr hs)
        rw [hKept s hLater, Array.getElem?_setIfInBounds_ne (Ne.symm hNe)]
    · cases h

namespace CodeBlock

theorem getElem?_loadConstants_of_ne {constants : List Constant} {s : Slot}
    (h : ∀ c ∈ constants, c.slot ≠ s) : (loadConstants constants scope)[s]? = scope[s]? := by
  induction constants generalizing scope with
  | nil => rfl
  | cons c constants ih =>
    obtain ⟨hHead, hTail⟩ := List.forall_mem_cons.mp h
    rw [loadConstants, List.foldl_cons]
    exact (ih hTail).trans (Array.getElem?_setIfInBounds_ne hHead)

theorem size_grow (b : CodeBlock) (scope : Scope) :
    (b.grow scope).size = max scope.size b.scopeSize := by
  rw [grow, Array.size_append, Array.size_replicate]
  omega

theorem takesOver_enter (b : CodeBlock) (hConstants : ∀ c ∈ b.constants, c.slot < b.scopeSize)
    (scope : Scope) (cameFrom : Option Label) :
    b.TakesOver scope (b.enter scope cameFrom).scope where
  size := by rw [enter, size_loadConstants, size_grow]
  loaded earlier c later hSplit hLast := by
    have hLt : c.slot < (loadConstants earlier (b.grow scope)).size := by
      have hSlot := hConstants c (hSplit ▸ List.mem_append_right _ List.mem_cons_self)
      rw [size_loadConstants, size_grow]
      exact Nat.lt_of_lt_of_le hSlot (Nat.le_max_right _ _)
    have hLoad : (b.enter scope cameFrom).scope = loadConstants later
        ((loadConstants earlier (b.grow scope)).setIfInBounds c.slot c.value) := by
      rw [enter, hSplit, loadConstants, List.foldl_append, List.foldl_cons]
      rfl
    rw [hLoad, getElem?_loadConstants_of_ne hLast]
    exact Array.getElem?_setIfInBounds_self_of_lt hLt
  kept s hs hNone := by
    rw [enter, getElem?_loadConstants_of_ne hNone, grow, Array.getElem?_append_left hs]
  fresh s hs hNew hNone := by
    rw [enter, size_loadConstants, size_grow] at hs
    have hLt : s - scope.size < b.scopeSize - scope.size := by omega
    rw [enter, getElem?_loadConstants_of_ne hNone, grow, Array.getElem?_append_right hNew,
      Array.getElem?_replicate, if_pos hLt]

end CodeBlock

namespace Machine

variable {p : Program} {limits : Limits} {s t : State} {a : Activation} {b : CodeBlock} {i : Instr}

theorem perform_running {effect : Effect Slot Label} (h : perform p s b a effect = .next t) :
    t.host.pending = s.host.pending ∧ match effect with
      | .store writes => ∃ after, a.scope.writeAll writes = .ok after ∧
          t.running = some { a with scope := after, pc := a.pc + 1 }
      | .output _ => t.running = some { a with pc := a.pc + 1 }
      | .transfer target => ∃ next, p.block? target = some next ∧
          t.running = some (next.enter a.scope (some a.code)) := by
  cases effect with
  | store writes =>
    rw [perform] at h
    split at h
    · rename_i after hWrite
      cases h
      exact ⟨rfl, after, hWrite, rfl⟩
    · cases h
  | output bytes =>
    rw [perform] at h
    split at h
    · cases h
      exact ⟨rfl, rfl⟩
    · cases h
  | transfer target =>
    rw [perform] at h
    split at h
    · rename_i next hNext
      cases h
      exact ⟨rfl, next, hNext, rfl⟩
    · cases h

theorem perform_constants (effect : Effect Slot Label) :
    (perform p s b a effect).state.host.constants = s.host.constants := by
  cases effect with
  | store writes | output bytes | transfer target =>
    rw [perform]
    split <;> rfl

theorem perform_sink {effect : Effect Slot Label} (h : ∀ bytes, effect ≠ .output bytes) :
    (perform p s b a effect).state.host.sink = s.host.sink := by
  cases effect with
  | store writes | transfer target =>
    rw [perform]
    split <;> rfl
  | output bytes => exact absurd rfl (h bytes)

theorem step_performs (p : Program) (limits : Limits) (s : State) :
    (step p limits s).state.host.constants = s.host.constants ∧
        (step p limits s).state.host.sink = s.host.sink ∨
      ∃ a b i effect texts, s.At p a b (some i) ∧
        i.effect s.host.constants a.scope [] = .ok effect texts ∧
        step p limits s = perform p ((s.count a i).warn texts) b a effect := by
  obtain hNone | ⟨a, hRunning, hBlock⟩ | ⟨a, b, hAt⟩ | ⟨a, b, i, hAt⟩ := stands p s
  · left
    rw [step_of_none hNone, resume]
    split <;> exact ⟨rfl, rfl⟩
  · left
    rw [step_of_missing hRunning hBlock]
    exact ⟨rfl, rfl⟩
  · left
    rw [step_at_end hAt]
    exact ⟨rfl, rfl⟩
  · rw [step_at hAt]
    obtain ⟨texts, ⟨fault, hFail⟩ | ⟨effect, -, hEffect, hPerform⟩⟩ :=
      execute_cases p limits s b a i
    · left
      rw [hFail]
      exact ⟨rfl, rfl⟩
    · exact .inr ⟨a, b, i, effect, texts, hAt, hEffect, hPerform⟩

theorem step_constants (p : Program) (limits : Limits) (s : State) :
    (step p limits s).state.host.constants = s.host.constants := by
  obtain ⟨hSame, -⟩ | ⟨a, b, i, effect, texts, -, -, hPerform⟩ := step_performs p limits s
  · exact hSame
  · rw [hPerform]
    exact perform_constants effect

theorem step_sink (h : ∀ a b slot, ¬ s.At p a b (some (.echo slot))) :
    (step p limits s).state.host.sink = s.host.sink := by
  obtain ⟨-, hSame⟩ | ⟨a, b, i, effect, texts, hAt, hEffect, hPerform⟩ := step_performs p limits s
  · exact hSame
  · rw [hPerform]
    refine perform_sink ?_
    rintro bytes rfl
    obtain ⟨slot, v, rfl, -⟩ := Instr.effect_eq_ok hEffect
    exact h a b slot hAt

/-- The frames below stay where they are while a frame runs, and what becomes of its activation is
what the instruction leaves of it. -/
theorem step_leaves (hp : p.WellFormed) (hAt : s.At p a b (some i))
    (h : step p limits s = .next t) :
    t.host.pending = s.host.pending ∧
      ∃ a', t.running = some a' ∧ i.Leaves p s.host.constants a a' := by
  rw [step_at hAt] at h
  obtain ⟨-, effect, texts, hEffect, hPerform⟩ := execute_next h
  have hIsOf := Instr.effect_eq_ok hEffect
  obtain ⟨hPending, hRunning⟩ := perform_running hPerform
  refine ⟨hPending, ?_⟩
  cases effect with
  | store writes =>
    obtain ⟨v, hValue, rfl⟩ := hIsOf
    obtain ⟨after, hWrite, hRunning⟩ := hRunning
    have hWrites : a.scope.Writes i.written (i.value? s.host.constants a.scope) after :=
      hValue ▸ Scope.writes_of_writeAll hWrite
    exact ⟨_, hRunning, .inBlock (Instr.targets_of_value? hValue) hWrites⟩
  | output bytes =>
    obtain ⟨slot, v, rfl, -⟩ := hIsOf
    exact ⟨_, hRunning, .inBlock rfl ⟨rfl, fun s hs => absurd hs List.not_mem_nil, fun _ _ => rfl⟩⟩
  | transfer target =>
    obtain ⟨hTarget, hDestination⟩ := hIsOf
    obtain ⟨next, hNext, hRunning⟩ := hRunning
    have hTakes := next.takesOver_enter (hp.block hNext).constants_lt a.scope (some a.code)
    have hEnter : next.enter a.scope (some a.code) =
        { code := target, scope := (next.enter a.scope (some a.code)).scope, pc := 0,
          cameFrom := some a.code } := by
      rw [← hp.label_eq hNext]
      rfl
    exact ⟨_, hRunning.trans (congrArg some hEnter), .elsewhere hTarget hDestination hNext hTakes⟩

theorem Reaches.constants_eq (h : Reaches p limits s t) : t.host.constants = s.host.constants := by
  induction h with
  | refl => rfl
  | @step t u _ hStep ih =>
    have hConstants := step_constants p limits t
    rw [hStep] at hConstants
    exact hConstants.trans ih

/-- A step of a verified program touches only what it declares. It defines no constants, and neither
does any number of steps; it writes output only as an echo. An instruction that does not transfer
control writes one value, computed from the scope before, into its slots and leaves all others; one
that does hands the scope to its destination, which begins at its first instruction. -/
theorem step_touches (p : Program) (limits : Limits) (s : State) (hVerify : p.verify = .ok ()) :
    (step p limits s).state.host.constants = s.host.constants ∧
    (∀ t, Reaches p limits s t → t.host.constants = s.host.constants) ∧
    ((∀ a b slot, ¬ s.At p a b (some (.echo slot))) →
      (step p limits s).state.host.sink = s.host.sink) ∧
    ∀ a b i t, s.At p a b (some i) → step p limits s = .next t →
      ∃ a', t.running = some a' ∧ i.Leaves p s.host.constants a a' := by
  have hp := (p.verify_eq_ok_iff).mp hVerify
  refine ⟨step_constants p limits s, fun t h => h.constants_eq, step_sink, ?_⟩
  intro a b i t hAt hStep
  exact (step_leaves hp hAt hStep).2

/-- A block that doubles a slot in place, and a larger one with two constants for the same slot. -/
def baton : Program where
  blocks := [
    { label := ⟨0⟩, origin := ⟨0⟩, instrs := [.binary (.arithmetic .plus) 1 1 1, .jump ⟨1⟩],
      lines := [none, none], scopeSize := 2 },
    { label := ⟨1⟩, origin := ⟨1⟩, instrs := [.echo 0], lines := [none],
      constants := [⟨⟨0⟩, 0, .integer 1⟩, ⟨⟨1⟩, 0, .integer 2⟩], scopeSize := 4 }]
  entry := ⟨0⟩
  slotCount := 4

/-- The first block, with one slot more than it needs. -/
def handing (n : Int64) (pc : Nat) : Activation where
  code := ⟨0⟩
  scope := #[.unknown, .integer n, .boolean true]
  pc := pc

/-- The second block, with the slots of the first and one of its own. -/
def handed : Activation where
  code := ⟨1⟩
  scope := #[.integer 2, .integer 6, .boolean true, .unknown]
  cameFrom := some ⟨0⟩

theorem step_touches_baton :
    baton.verify = .ok () ∧
    (∃ t, step baton {} { running := some (handing 3 0), host := {} } = .next t ∧
      ∃ a', t.running = some a' ∧ a' = handing 6 1 ∧
        (Instr.binary (.arithmetic .plus) 1 1 1).Leaves baton {} (handing 3 0) a') ∧
    ∃ t, step baton {} { running := some (handing 6 1), host := {} } = .next t ∧
      ∃ a', t.running = some a' ∧ a' = handed ∧
        (Instr.jump ⟨1⟩).Leaves baton {} (handing 6 1) a' := by
  have hVerify : baton.verify = .ok () := rfl
  refine ⟨hVerify, ⟨_, rfl, ?_⟩, ⟨_, rfl, ?_⟩⟩
  · obtain ⟨-, -, -, hLeaves⟩ :=
      step_touches baton {} { running := some (handing 3 0), host := {} } hVerify
    obtain ⟨a', hRunning, hLeft⟩ := hLeaves (handing 3 0) _ _ _ ⟨rfl, rfl, rfl⟩ rfl
    exact ⟨a', hRunning, (Option.some.inj hRunning).symm.trans (by decide +kernel), hLeft⟩
  · obtain ⟨-, -, -, hLeaves⟩ :=
      step_touches baton {} { running := some (handing 6 1), host := {} } hVerify
    obtain ⟨a', hRunning, hLeft⟩ := hLeaves (handing 6 1) _ _ _ ⟨rfl, rfl, rfl⟩ rfl
    exact ⟨a', hRunning, (Option.some.inj hRunning).symm.trans (by decide +kernel), hLeft⟩

end Machine

end BlockMachine
