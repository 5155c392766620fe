/-!
# Outcomes of computations
What the result of a sequence of computations says about the results of its parts.
-/

namespace BlockMachine.Outcome
set_option autoImplicit false

variable {ε ε' σ α β : Type} {x : EStateM ε σ α} {f : α → EStateM ε σ β} {s t u : σ} {a : α}
  {b : β} {e : ε}

theorem bind_of_ok (h : x s = .ok a t) : (x >>= f) s = f a t := by
  change EStateM.bind x f s = _
  rw [EStateM.bind, h]

theorem bind_of_error (h : x s = .error e t) : (x >>= f) s = .error e t := by
  change EStateM.bind x f s = _
  rw [EStateM.bind, h]

theorem bind_eq_ok_iff : (x >>= f) s = .ok b u ↔ ∃ a t, x s = .ok a t ∧ f a t = .ok b u := by
  constructor
  · intro h
    cases hx : x s with
    | ok a t =>
      rw [bind_of_ok hx] at h
      exact ⟨a, t, rfl, h⟩
    | error e t =>
      rw [bind_of_error hx] at h
      cases h
  · rintro ⟨a, t, hx, hf⟩
    rw [bind_of_ok hx, hf]

theorem bind_eq_error_iff : (x >>= f) s = .error e u ↔
    x s = .error e u ∨ ∃ a t, x s = .ok a t ∧ f a t = .error e u := by
  constructor
  · intro h
    cases hx : x s with
    | ok a t =>
      rw [bind_of_ok hx] at h
      exact .inr ⟨a, t, rfl, h⟩
    | error e t =>
      rw [bind_of_error hx] at h
      cases h
      exact .inl rfl
  · rintro (hx | ⟨a, t, hx, hf⟩)
    · exact bind_of_error hx
    · rw [bind_of_ok hx, hf]

theorem adaptExcept_of_ok {g : ε → ε'} (h : x s = .ok a t) : EStateM.adaptExcept g x s = .ok a t := by
  rw [EStateM.adaptExcept, h]

theorem adaptExcept_of_error {g : ε → ε'} (h : x s = .error e t) :
    EStateM.adaptExcept g x s = .error (g e) t := by rw [EStateM.adaptExcept, h]

theorem adaptExcept_eq_ok_iff {g : ε → ε'} :
    EStateM.adaptExcept g x s = .ok a t ↔ x s = .ok a t := by
  cases hx : x s with
  | ok b u => rw [adaptExcept_of_ok hx]; simp
  | error e u => rw [adaptExcept_of_error hx]; simp

theorem adaptExcept_bind (g : ε → ε') (x : EStateM ε σ α) (f : α → EStateM ε σ β) :
    EStateM.adaptExcept g (x >>= f) =
      EStateM.adaptExcept g x >>= fun a => EStateM.adaptExcept g (f a) := by
  funext s
  cases hx : x s with
  | ok a t => rw [bind_of_ok (adaptExcept_of_ok hx), EStateM.adaptExcept, bind_of_ok hx]; rfl
  | error e t =>
    rw [bind_of_error (adaptExcept_of_error hx), adaptExcept_of_error (bind_of_error hx)]

end BlockMachine.Outcome
