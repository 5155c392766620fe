import BlockMachine.Graph.Walk
import BlockMachine.Lowering.Rendering
import BlockMachine.Proofs.Machine.Safety

/-!
# Effects of operands and of slots
What a node computes from operands is what its instruction computes from the slots that hold their
values. Evaluation does not care what the places are, so a fault only changes the name of its place.
-/

namespace BlockMachine
set_option autoImplicit false

namespace Fault

def map {place place' : Type} (f : place → place') : Fault place → Fault place'
  | .coercion mnemonic operand source target reason =>
    .coercion mnemonic (f operand) source target reason
  | .overflow mnemonic left right => .overflow mnemonic left right
  | .undefinedConstant name qualified => .undefinedConstant name qualified
  | .stepLimit steps => .stepLimit steps
  | .frameLimit frames => .frameLimit frames
  | .output reason => .output reason
  | .internal text => .internal text

end Fault

def Effect.map (pl : Placement) : Effect OperandId BlockId → Effect Slot Label
  | .store writes => .store (writes.map fun w => (pl.slot w.1, w.2))
  | .output bytes => .output bytes
  | .transfer target => .transfer (pl.label target)

section Evaluation

variable {place place' α β : Type} (f : place → place')

def Eval.rename (x : Eval place α) : Eval place' α := EStateM.adaptExcept (Fault.map f) x

variable {f} {read : place → Eval place Value} {read' : place' → Eval place' Value}

theorem Eval.rename_bind (x : Eval place α) (k : α → Eval place β) :
    (x >>= k).rename f = x.rename f >>= fun a => (k a).rename f :=
  Outcome.adaptExcept_bind _ x k

theorem Eval.rename_of_ok {x : Eval place α} {a : α} {ws ws' : List String}
    (h : x ws = .ok a ws') : x.rename f ws = .ok a ws' := Outcome.adaptExcept_of_ok h

theorem Eval.rename_of_error {x : Eval place α} {fault : Fault place} {ws ws' : List String}
    (h : x ws = .error fault ws') : x.rename f ws = .error (fault.map f) ws' :=
  Outcome.adaptExcept_of_error h

theorem Eval.int_rename {mnemonic : String} {o : place} (h : read' (f o) = (read o).rename f) :
    Eval.int read' mnemonic (f o) = (Eval.int read mnemonic o).rename f := by
  rw [Eval.int, Eval.int, rename_bind, h]
  congr 1
  funext v
  cases v.toInt with
  | ok r => rfl
  | error reason => rfl

theorem Eval.name_rename {o : place} (h : read' (f o) = (read o).rename f) :
    Eval.name read' (f o) = (Eval.name read o).rename f := by
  rw [Eval.name, Eval.name, rename_bind, h]
  rfl

theorem Operator.eval_rename (op : Operator) {left right : place}
    (hLeft : read' (f left) = (read left).rename f)
    (hRight : read' (f right) = (read right).rename f) :
    op.eval read' (f left) (f right) = (op.eval read left right).rename f := by
  cases op with
  | concat | equal | notEqual =>
    simp only [Operator.eval, Eval.rename_bind, hLeft, hRight]
    rfl
  | arithmetic g =>
    simp only [Operator.eval, Eval.rename_bind, Eval.int_rename hLeft, Eval.int_rename hRight]
    congr 1
    funext a
    congr 1
    funext b
    cases g.apply a b with
    | some n => rfl
    | none => rfl
  | comparison g =>
    simp only [Operator.eval, Eval.rename_bind, Eval.int_rename hLeft, Eval.int_rename hRight]
    rfl

theorem fetchConstant_rename (lookup : String → Option Value) {name : place}
    {qualified : Option place} (hName : read' (f name) = (read name).rename f)
    (hQualified : ∀ q ∈ qualified, read' (f q) = (read q).rename f) :
    fetchConstant lookup read' (f name) (qualified.map f) =
      (fetchConstant lookup read name qualified).rename f := by
  have hOption : (qualified.map f).mapM (Eval.name read') =
      Eval.rename f (qualified.mapM (Eval.name read)) := by
    cases qualified with
    | none => rfl
    | some q =>
      rw [Option.map_some, Option.mapM_some, Option.mapM_some, map_eq_pure_bind, map_eq_pure_bind,
        Eval.rename_bind, Eval.name_rename (hQualified q rfl)]
      rfl
  rw [fetchConstant, fetchConstant, Eval.rename_bind, Eval.name_rename hName]
  congr 1
  funext text
  rw [Eval.rename_bind, hOption]
  congr 1
  funext other
  cases other.bind lookup <|> lookup text with
  | some v => rfl
  | none => rfl

end Evaluation

def Effect.Of (a : Action) : Effect OperandId BlockId → Prop
  | .store writes => ∀ w ∈ writes, w.1 ∈ a.operands
  | .output _ => True
  | .transfer target => target ∈ a.targets

namespace Action

theorem effect_ensures {a : Action} (hSupported : a.supported = true) (constants : Constants)
    (v : Valuation) : (a.effect constants v).Ensures (·.Of a) := by
  have hRead (o : OperandId) : (v.read o).Ensures fun _ => True := .pure trivial
  cases a with
  | binary op left right result =>
    obtain ⟨f, hf⟩ := Option.isSome_iff_exists.mp hSupported
    rw [effect, hf]
    exact (f.eval_ensures (hRead left) (hRead right)).bind fun _ _ =>
      .pure (by simp [Effect.Of, operands])
  | assign var expr result => exact .pure (by simp [Effect.Of, operands])
  | concatList parts result =>
    rcases parts with _ | ⟨first, _ | ⟨second, rest⟩⟩
    all_goals exact .pure (by simp [Effect.Of, operands])
  | constFetch name qualified result =>
    exact (fetchConstant_ensures constants.lookup (hRead name) fun q _ => hRead q).bind fun _ _ =>
      .pure (by simp [Effect.Of, operands])
  | jump target => exact .pure (by simp [Effect.Of, targets])
  | branch cond ifTrue ifFalse =>
    refine .pure ?_
    cases (v cond).toBool <;> simp [Effect.Of, targets]
  | echo expr => exact .pure trivial
  | call | declare | ret => cases hSupported

theorem effect_ne_stepLimit (a : Action) (constants : Constants) (v : Valuation)
    (ws ws' : List String) (m : Nat) : a.effect constants v ws ≠ .error (.stepLimit m) ws' := by
  intro h
  by_cases hSupported : a.supported = true
  · have hEnsures := effect_ensures hSupported constants v ws
    rw [h] at hEnsures
    cases hEnsures
  · cases a with
    | binary op left right result =>
      have hOp : op.operator? = none := by simpa [supported] using hSupported
      rw [effect, hOp] at h
      cases h
    | concatList parts result =>
      have hParts : parts = [] := by simpa [supported] using hSupported
      subst hParts
      cases h
    | call | declare | ret => cases h
    | assign | constFetch | jump | branch | echo => exact hSupported rfl

theorem exists_instr {g : Graph} {a : Action} (ha : a.Lowerable g) (pl : Placement)
    (hSingle : ∀ parts result, a ≠ .concatList parts result) :
    ∃ i, a.code pl [] = [i] ∧ ∀ (constants : Constants) (v : Valuation) (scope : Scope),
      (∀ o ∈ a.operands, scope[pl.slot o]? = some (v o)) →
      i.effect constants scope =
        (a.effect constants v).rename pl.slot >>= fun e => pure (e.map pl) := by
  have hRead {scope : Scope} {v : Valuation} {o : OperandId} (ho : scope[pl.slot o]? = some (v o)) :
      Scope.read scope (pl.slot o) = (v.read o).rename pl.slot := Scope.read_of_some ho
  have hSupported := ha.supported
  cases a with
  | binary op left right result =>
    obtain ⟨f, hf⟩ := Option.isSome_iff_exists.mp hSupported
    refine ⟨_, by rw [code, hf]; rfl, fun constants v scope hScope => ?_⟩
    have hLeft := hRead (hScope left (by simp [operands]))
    have hRight := hRead (hScope right (by simp [operands]))
    rw [Instr.effect, effect, hf, f.eval_rename hLeft hRight]
    dsimp only
    rw [Eval.rename_bind, bind_assoc]
    rfl
  | assign var expr result =>
    refine ⟨_, rfl, fun constants v scope hScope => ?_⟩
    rw [Instr.effect, Scope.read_of_some (hScope expr (by simp [operands]))]
    rfl
  | concatList parts result => exact absurd rfl (hSingle parts result)
  | constFetch name qualified result =>
    refine ⟨_, rfl, fun constants v scope hScope => ?_⟩
    have hName := hRead (hScope name (by simp [operands]))
    have hQualified : ∀ q ∈ qualified, Scope.read scope (pl.slot q) = (v.read q).rename pl.slot :=
      fun q hq => hRead (hScope q (by simp [operands, Option.mem_def.mp hq]))
    rw [Instr.effect, effect, fetchConstant_rename constants.lookup hName hQualified,
      Eval.rename_bind, bind_assoc]
    rfl
  | jump target => exact ⟨_, rfl, fun _ _ _ _ => rfl⟩
  | branch cond ifTrue ifFalse =>
    refine ⟨_, rfl, fun constants v scope hScope => ?_⟩
    rw [Instr.effect, Scope.read_of_some (hScope cond (by simp [operands])), effect]
    cases hBool : (v cond).toBool
    all_goals
      rw [pure_bind, hBool]
      rfl
  | echo expr =>
    refine ⟨_, rfl, fun constants v scope hScope => ?_⟩
    rw [Instr.effect, Scope.read_of_some (hScope expr (by simp [operands]))]
    rfl
  | call | declare | ret => cases hSupported

end Action

end BlockMachine
