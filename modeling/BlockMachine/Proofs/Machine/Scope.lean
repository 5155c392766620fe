import BlockMachine.Machine.Step

/-!
# Scopes
Reading and writing slots that exist, and what a slot holds once a block is entered.
-/

namespace BlockMachine
set_option autoImplicit false

namespace Scope

variable {scope : Scope} {s : Slot} {v : Value}

theorem read_of_some (h : scope[s]? = some v) : Scope.read scope s = pure v := by
  rw [Scope.read, h]

theorem lt_size_of_some (h : scope[s]? = some v) : s < scope.size :=
  (Array.getElem?_eq_some_iff.mp h).1

theorem write_of_lt (h : s < scope.size) (v : Value) :
    Scope.write scope s v = .ok (scope.setIfInBounds s v) := by rw [Scope.write, if_pos h]

theorem writeAll_cons_of_lt (h : s < scope.size) (v : Value) (writes : List (Slot × Value)) :
    scope.writeAll ((s, v) :: writes) = writeAll (scope.setIfInBounds s v) writes := by
  rw [writeAll, write_of_lt h]
  rfl

end Scope

namespace CodeBlock

variable {scope : Scope} {s : Slot} {v : Value}

theorem size_loadConstants (constants : List Constant) (scope : Scope) :
    (loadConstants constants scope).size = scope.size := by
  induction constants generalizing scope with
  | nil => rfl
  | cons c constants ih =>
    rw [loadConstants, List.foldl_cons]
    exact (ih _).trans Array.size_setIfInBounds

theorem scopeSize_le_enter (b : CodeBlock) (scope : Scope) (cameFrom : Option Label) :
    b.scopeSize ≤ (b.enter scope cameFrom).scope.size := by
  rw [enter, size_loadConstants, grow, Array.size_append, Array.size_replicate]
  omega

/-- A slot holds a value after loading if it held it before or a constant brings it, and no
constant brings another one. -/
theorem loadConstants_eq_some {constants : List Constant}
    (hOnly : ∀ c ∈ constants, c.slot = s → c.value = v)
    (hValue : scope[s]? = some v ∨ s < scope.size ∧ ∃ c ∈ constants, c.slot = s) :
    (loadConstants constants scope)[s]? = some v := by
  induction constants generalizing scope with
  | nil =>
    rcases hValue with hValue | ⟨-, c, hc, -⟩
    · exact hValue
    · cases hc
  | cons c constants ih =>
    obtain ⟨hHead, hTail⟩ := List.forall_mem_cons.mp hOnly
    rw [loadConstants, List.foldl_cons]
    refine ih hTail ?_
    by_cases hSlot : c.slot = s
    · have hLt : s < scope.size := hValue.elim Scope.lt_size_of_some And.left
      left
      rw [hSlot, Array.getElem?_setIfInBounds_self_of_lt hLt, hHead hSlot]
    · rcases hValue with hValue | ⟨hLt, d, hd, hFound⟩
      · left
        rw [Array.getElem?_setIfInBounds_ne hSlot]
        exact hValue
      · right
        refine ⟨by rwa [Array.size_setIfInBounds], d, ?_, hFound⟩
        rcases List.mem_cons.mp hd with rfl | hd
        · exact absurd hFound hSlot
        · exact hd

theorem grow_of_some (b : CodeBlock) (h : scope[s]? = some v) : (b.grow scope)[s]? = some v := by
  rw [grow, Array.getElem?_append_left (Scope.lt_size_of_some h), h]

theorem grow_empty (b : CodeBlock) (h : s < b.scopeSize) : (b.grow #[])[s]? = some .unknown := by
  have hGrow : b.grow #[] = Array.replicate b.scopeSize .unknown := by simp [grow]
  rw [hGrow, Array.getElem?_replicate, if_pos h]

end CodeBlock

end BlockMachine
