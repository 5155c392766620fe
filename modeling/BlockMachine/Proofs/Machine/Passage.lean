import BlockMachine.Machine.Reach
import BlockMachine.Proofs.Machine.Sink

/-!
# Passages
Counted sequences of transitions, and what a machine shows of itself on the way: its output, its
warnings and its steps. A run is settled by a passage to a state from which the machine halts.
-/

namespace BlockMachine.Machine
set_option autoImplicit false

variable {p : Program} {limits : Limits} {s t u : State}

namespace Passes

theorem single (h : step p limits s = .next t) : Passes p limits 1 s t := .head h (.refl t)

theorem trans {m n : Nat} (h : Passes p limits m s t) (h' : Passes p limits n t u) :
    Passes p limits (m + n) s u := by
  induction h with
  | refl =>
    rw [Nat.zero_add]
    exact h'
  | head hStep _ ih =>
    rw [Nat.add_right_comm]
    exact .head hStep (ih h')

theorem iterate_add {n : Nat} (h : Passes p limits n s t) (fuel : Nat) :
    iterate p limits (n + fuel) s = iterate p limits fuel t := by
  induction h with
  | refl => rw [Nat.zero_add]
  | head hStep _ ih =>
    rw [Nat.add_right_comm, iterate, hStep]
    exact ih

theorem reaches {n : Nat} (h : Passes p limits n s t) {r : State} (hr : Reaches p limits r s) :
    Reaches p limits r t := by
  induction h with
  | refl => exact hr
  | head hStep _ ih => exact ih (hr.step hStep)

theorem iterate_sub {n fuel : Nat} (h : Passes p limits n s t) {r : State × Option Failure}
    (hRun : iterate p limits fuel s = some r) :
    n < fuel ∧ iterate p limits (fuel - n) t = some r := by
  induction h generalizing fuel with
  | refl =>
    refine ⟨?_, hRun⟩
    cases fuel with
    | zero => cases hRun
    | succ fuel => exact Nat.succ_pos fuel
  | head hStep _ ih =>
    cases fuel with
    | zero => cases hRun
    | succ fuel =>
      rw [iterate, hStep] at hRun
      obtain ⟨hLt, hRest⟩ := ih hRun
      rw [Nat.succ_sub_succ]
      exact ⟨Nat.succ_lt_succ hLt, hRest⟩

end Passes

theorem Reaches.exists_passes (h : Reaches p limits s t) : ∃ n, Passes p limits n s t := by
  induction h with
  | refl => exact ⟨0, .refl s⟩
  | step _ hStep ih =>
    obtain ⟨n, hPasses⟩ := ih
    exact ⟨n + 1, hPasses.trans (.single hStep)⟩

theorem Halts.of_step {failure : Option Failure} (h : step p limits s = .halt t failure) :
    Halts p limits s t failure := ⟨0, s, .refl s, h⟩

theorem Halts.of_passes {n : Nat} {failure : Option Failure} (h : Passes p limits n s t)
    (h' : Halts p limits t u failure) : Halts p limits s u failure := by
  obtain ⟨m, v, hPasses, hStep⟩ := h'
  exact ⟨n + m, v, h.trans hPasses, hStep⟩

theorem Halts.exists_iterate {failure : Option Failure} (h : Halts p limits s u failure) :
    ∃ fuel, iterate p limits fuel s = some (u, failure) := by
  obtain ⟨n, t, hPasses, hStep⟩ := h
  refine ⟨n + 1, ?_⟩
  rw [hPasses.iterate_add, iterate, hStep]

theorem Halts.of_iterate {fuel : Nat} {failure : Option Failure}
    (h : iterate p limits fuel s = some (t, failure)) : Halts p limits s t failure := by
  induction fuel generalizing s with
  | zero => cases h
  | succ fuel ih =>
    rw [iterate] at h
    cases hStep : step p limits s with
    | next u =>
      rw [hStep] at h
      exact (ih h).of_passes (.single hStep)
    | halt u failure =>
      rw [hStep] at h
      cases h
      exact .of_step hStep

theorem iterate_mono {fuel more : Nat} {r : State × Option Failure} (hMore : fuel ≤ more)
    (h : iterate p limits fuel s = some r) : iterate p limits more s = some r := by
  induction fuel generalizing s more with
  | zero => cases h
  | succ fuel ih =>
    obtain ⟨more, rfl⟩ : ∃ n, more = n + 1 := ⟨more - 1, by omega⟩
    rw [iterate] at h ⊢
    split at h
    · exact ih (Nat.le_of_succ_le_succ hMore) h
    · exact h

/-- However much fuel a run gets, it ends in one way only. -/
theorem iterate_unique {m n : Nat} {r r' : State × Option Failure}
    (h : iterate p limits m s = some r) (h' : iterate p limits n s = some r') : r = r' := by
  have hLeft := iterate_mono (Nat.le_add_right m n) h
  have hRight := iterate_mono (Nat.le_add_left n m) h'
  exact Option.some.inj (hLeft.symm.trans hRight)

/-- What there is to see from outside: nothing is pending on the host, whose sink is unlimited, and
the machine has added some output, some warnings and some steps. -/
structure State.Shows (s : State) (h : Host) (output : List UInt8) (warnings : List String)
    (steps : Nat) : Prop where
  pending : s.host.pending = []
  constants : s.host.constants = h.constants
  unlimited : s.host.sink.Unlimited
  output : s.host.sink.kept = h.sink.kept ++ output
  warnings : s.trail.reverse.filterMap Event.warning? = warnings
  steps : s.steps = steps

namespace State

def count (s : State) (a : Activation) (i : Instr) : State :=
  { s.report (.reached a.code a.pc i.mnemonic) with steps := s.steps + 1 }

namespace Shows

variable {h : Host} {output : List UInt8} {warnings : List String} {n : Nat}

theorem report (hs : s.Shows h output warnings n) {e : Event} (he : e.warning? = none) :
    (s.report e).Shows h output warnings n := by
  refine { hs with warnings := ?_ }
  rw [report_trail, List.reverse_cons, List.filterMap_append, hs.warnings,
    List.filterMap_cons_none he]
  exact List.append_nil warnings

theorem count (hs : s.Shows h output warnings n) (a : Activation) (i : Instr) :
    (s.count a i).Shows h output warnings (n + 1) :=
  { hs.report (e := .reached a.code a.pc i.mnemonic) rfl with steps := congrArg (· + 1) hs.steps }

theorem warn (hs : s.Shows h output warnings n) (texts : List String) :
    (s.warn texts).Shows h output (warnings ++ texts) n := by
  refine { hs with warnings := ?_ }
  have hTexts (texts : List String) :
      (texts.map Event.warned).filterMap Event.warning? = texts := by
    induction texts with
    | nil => rfl
    | cons text texts ih => exact congrArg (text :: ·) ih
  rw [warn_trail, List.reverse_append, List.filterMap_append, hs.warnings, ← List.map_reverse,
    List.reverse_reverse, hTexts]

end Shows

end State

section Step

variable {h : Host} {output : List UInt8} {warnings texts : List String} {n : Nat}
  {a : Activation} {b : CodeBlock} {i : Instr}

theorem step_at (hAt : s.At p a b (some i)) : step p limits s = execute p limits s b a i := by
  rw [step, hAt.running]
  dsimp only
  rw [hAt.block]
  dsimp only
  rw [hAt.instr]

theorem step_of_ok {effect : Effect Slot Label} (hs : s.Shows h output warnings n)
    (hAt : s.At p a b (some i)) (hLimit : overLimit limits (n + 1) = none)
    (hEffect : i.effect h.constants a.scope [] = .ok effect texts) :
    step p limits s = perform p ((s.count a i).warn texts) b a effect := by
  rw [step_at hAt, execute]
  dsimp only
  rw [hs.steps, hLimit]
  dsimp only
  rw [State.report_host, hs.constants, hEffect, ← hs.steps]
  rfl

theorem step_store {writes : List (Slot × Value)} {scope : Scope}
    (hs : s.Shows h output warnings n) (hAt : s.At p a b (some i))
    (hLimit : overLimit limits (n + 1) = none)
    (hEffect : i.effect h.constants a.scope [] = .ok (.store writes) texts)
    (hWrite : a.scope.writeAll writes = .ok scope) :
    ∃ t, step p limits s = .next t ∧ t.running = some { a with scope, pc := a.pc + 1 } ∧
      t.Shows h output (warnings ++ texts) (n + 1) := by
  have hStep : step p limits s = .next { (s.count a i).warn texts with
      running := some { a with scope, pc := a.pc + 1 } } := by
    rw [step_of_ok hs hAt hLimit hEffect, perform, hWrite]
  exact ⟨_, hStep, rfl, { (hs.count a i).warn texts with }⟩

theorem step_output {bytes : List UInt8} (hs : s.Shows h output warnings n)
    (hAt : s.At p a b (some i)) (hLimit : overLimit limits (n + 1) = none)
    (hEffect : i.effect h.constants a.scope [] = .ok (.output bytes) texts) :
    ∃ t, step p limits s = .next t ∧ t.running = some { a with pc := a.pc + 1 } ∧
      t.Shows h (output ++ bytes) (warnings ++ texts) (n + 1) := by
  obtain ⟨after, hWrite, hAfter, hKept⟩ := Sink.writeAll_of_unlimited hs.unlimited bytes
  have hSink : ((s.count a i).warn texts).host.sink.writeAll bytes = (none, after) := hWrite
  have hStep : step p limits s = .next { (s.count a i).warn texts with
      running := some { a with pc := a.pc + 1 }
      host := { s.host with sink := after } } := by
    rw [step_of_ok hs hAt hLimit hEffect, perform, hSink]
    rfl
  refine ⟨_, hStep, rfl, { (hs.count a i).warn texts with
    unlimited := hAfter
    output := ?_ }⟩
  rw [← List.append_assoc, ← hs.output]
  exact hKept

theorem step_transfer {target : Label} {next : CodeBlock} (hs : s.Shows h output warnings n)
    (hAt : s.At p a b (some i)) (hLimit : overLimit limits (n + 1) = none)
    (hEffect : i.effect h.constants a.scope [] = .ok (.transfer target) texts)
    (hNext : p.block? target = some next) :
    ∃ t, step p limits s = .next t ∧ t.running = some (next.enter a.scope (some a.code)) ∧
      t.Shows h output (warnings ++ texts) (n + 1) := by
  have hStep : step p limits s = .next
      { ((s.count a i).warn texts).report (.transferred a.code target) with
        running := some (next.enter a.scope (some a.code)) } := by
    rw [step_of_ok hs hAt hLimit hEffect, perform, hNext]
  exact ⟨_, hStep, rfl, { ((hs.count a i).warn texts).report rfl with }⟩

theorem step_fault {fault : Fault Slot} (hs : s.Shows h output warnings n)
    (hAt : s.At p a b (some i)) (hLimit : overLimit limits (n + 1) = none)
    (hEffect : i.effect h.constants a.scope [] = .error fault texts) :
    ∃ t failure, step p limits s = .halt t (some failure) ∧ failure.fault = fault ∧
      t.Shows h output (warnings ++ texts) (n + 1) := by
  have hStep : step p limits s = .halt ((s.count a i).warn texts)
      (some (((s.count a i).warn texts).failure b a fault)) := by
    rw [step_at hAt, execute]
    dsimp only
    rw [hs.steps, hLimit]
    dsimp only
    rw [State.report_host, hs.constants, hEffect, ← hs.steps]
    rfl
  exact ⟨_, _, hStep, rfl, (hs.count a i).warn texts⟩

theorem step_limit {fault : Fault Slot} (hs : s.Shows h output warnings n)
    (hAt : s.At p a b (some i)) (hLimit : overLimit limits (n + 1) = some fault) :
    ∃ t failure, step p limits s = .halt t (some failure) ∧ failure.fault = fault ∧
      t.Shows h output warnings (n + 1) := by
  have hStep : step p limits s = .halt (s.count a i) (some ((s.count a i).failure b a fault)) := by
    rw [step_at hAt, execute]
    dsimp only
    rw [hs.steps, hLimit, ← hs.steps]
    rfl
  exact ⟨_, _, hStep, rfl, hs.count a i⟩

theorem halts_at_end (hs : s.Shows h output warnings n) (hAt : s.At p a b none) :
    ∃ t, Halts p limits s t none ∧ t.Shows h output warnings n := by
  have hPop : step p limits s = .next { s with running := none } := by
    rw [step, hAt.running]
    dsimp only
    rw [hAt.block]
    dsimp only
    rw [hAt.instr]
  have hHalt : step p limits { s with running := none } = .halt { s with running := none } none := by
    rw [step]
    dsimp only
    rw [resume]
    dsimp only
    rw [hs.pending]
  exact ⟨_, (Halts.of_step hHalt).of_passes (.single hPop), { hs with }⟩

end Step

theorem overLimit_eq_none_iff (limits : Limits) (n : Nat) :
    overLimit limits n = none ↔ ∀ m, limits.maxSteps = some m → n ≤ m := by
  rw [overLimit]
  cases limits.maxSteps with
  | none => simp
  | some m => simp

theorem overLimit_mono {limits : Limits} {m n : Nat} (hLe : m ≤ n)
    (h : overLimit limits n = none) : overLimit limits m = none := by
  rw [overLimit_eq_none_iff] at h ⊢
  intro k hk
  exact Nat.le_trans hLe (h k hk)

theorem overLimit_eq_some {limits : Limits} {m n : Nat} (hMax : limits.maxSteps = some m)
    (hOver : m < n) : overLimit limits n = some (.stepLimit m) := by
  rw [overLimit, hMax]
  dsimp only
  rw [if_pos hOver]

theorem instr_of_drop {instrs is : List Instr} {pc : Nat} {i : Instr}
    (h : instrs.drop pc = i :: is) : instrs[pc]? = some i ∧ instrs.drop (pc + 1) = is := by
  constructor
  · rw [← List.head?_drop, h, List.head?_cons]
  · rw [← List.drop_drop, h, List.drop_one, List.tail_cons]

/-- Instructions that do nothing but store take one scope to another. -/
inductive Quiet (constants : Constants) : List Instr → Scope → Scope → Prop where
  | nil (scope : Scope) : Quiet constants [] scope scope
  | cons {i : Instr} {is : List Instr} {writes : List (Slot × Value)} {before scope after : Scope} :
      i.effect constants before [] = .ok (.store writes) [] → before.writeAll writes = .ok scope →
      Quiet constants is scope after → Quiet constants (i :: is) before after

namespace Quiet

variable {h : Host} {output : List UInt8} {warnings : List String} {n : Nat}
  {a : Activation} {b : CodeBlock} {is more : List Instr} {before after : Scope}

theorem passes (hQuiet : Quiet h.constants is before after) (hs : s.Shows h output warnings n)
    (hRunning : s.running = some a) (hScope : a.scope = before)
    (hBlock : p.block? a.code = some b) (hCode : b.instrs.drop a.pc = is ++ more)
    (hLimit : overLimit limits (n + is.length) = none) :
    ∃ t, Passes p limits is.length s t ∧
      t.running = some { a with scope := after, pc := a.pc + is.length } ∧
      t.Shows h output warnings (n + is.length) := by
  induction hQuiet generalizing s a n with
  | nil =>
    subst hScope
    exact ⟨s, .refl s, hRunning, hs⟩
  | @cons i is writes before scope after hEffect hWrite _ ih =>
    subst hScope
    obtain ⟨hInstr, hRest⟩ := instr_of_drop hCode
    rw [List.length_cons] at hLimit
    have hFirst : overLimit limits (n + 1) = none := overLimit_mono (by omega) hLimit
    have hLast : overLimit limits (n + 1 + is.length) = none := overLimit_mono (by omega) hLimit
    obtain ⟨t, hStep, hNext, ht⟩ :=
      step_store hs ⟨hRunning, hBlock, hInstr⟩ hFirst hEffect hWrite
    rw [List.append_nil] at ht
    obtain ⟨u, hPasses, hLater, hu⟩ := ih ht hNext rfl hBlock hRest hLast
    have hLength : n + (i :: is).length = n + 1 + is.length := by
      rw [List.length_cons]
      omega
    have hPc : a.pc + (i :: is).length = a.pc + 1 + is.length := by
      rw [List.length_cons]
      omega
    rw [hLength, hPc]
    exact ⟨u, .head hStep hPasses, hLater, hu⟩

/-- A limit in the middle stops them before they have shown anything. -/
theorem halts_over (hQuiet : Quiet h.constants is before after) {m : Nat}
    (hs : s.Shows h output warnings n) (hRunning : s.running = some a) (hScope : a.scope = before)
    (hBlock : p.block? a.code = some b) (hCode : b.instrs.drop a.pc = is ++ more)
    (hMax : limits.maxSteps = some m) (hStill : n ≤ m) (hOver : m < n + is.length) :
    ∃ t failure, Halts p limits s t (some failure) ∧ failure.fault = .stepLimit m ∧
      t.Shows h output warnings (m + 1) := by
  induction hQuiet generalizing s a n with
  | nil => exact absurd hOver (Nat.not_lt.mpr hStill)
  | @cons i is writes before scope after hEffect hWrite _ ih =>
    subst hScope
    obtain ⟨hInstr, hRest⟩ := instr_of_drop hCode
    rw [List.length_cons] at hOver
    by_cases hNow : m < n + 1
    · have hEq : n = m := by omega
      subst hEq
      obtain ⟨t, failure, hStep, hFault, ht⟩ :=
        step_limit hs ⟨hRunning, hBlock, hInstr⟩ (overLimit_eq_some hMax hNow)
      exact ⟨t, failure, .of_step hStep, hFault, ht⟩
    · have hFirst : overLimit limits (n + 1) = none := by
        rw [overLimit_eq_none_iff]
        intro k hk
        cases hMax.symm.trans hk
        omega
      obtain ⟨t, hStep, hNext, ht⟩ :=
        step_store hs ⟨hRunning, hBlock, hInstr⟩ hFirst hEffect hWrite
      rw [List.append_nil] at ht
      obtain ⟨u, failure, hHalts, hFault, hu⟩ :=
        ih ht hNext rfl hBlock hRest (by omega) (by omega)
      exact ⟨u, failure, hHalts.of_passes (.single hStep), hFault, hu⟩

end Quiet

end BlockMachine.Machine
