import BlockMachine.Lowering.Rendering
import BlockMachine.Proofs.Code.SlotTable

/-!
# Facts about renderings
Constants and slot table of a block as more operands are used, and how much code a node has.
-/

namespace BlockMachine
set_option autoImplicit false

theorem getElem?_of_extends {α : Type} {xs ys : List α} (h : xs <+: ys) {i : Nat} {x : α}
    (hx : xs[i]? = some x) : ys[i]? = some x := by
  obtain ⟨more, rfl⟩ := h
  rw [List.getElem?_append_left (List.getElem?_eq_some_iff.mp hx).1, hx]

section Enlist

variable {α : Type} [DecidableEq α]

theorem mem_enlist {xs : List α} {x y : α} : y ∈ enlist xs x ↔ y ∈ xs ∨ y = x := by
  rw [enlist]
  split
  · rename_i hx
    exact ⟨.inl, fun h => h.elim id fun hy => hy ▸ hx⟩
  · rw [List.mem_append, List.mem_singleton]

theorem enlist_extends (xs : List α) (x : α) : xs <+: enlist xs x := by
  rw [enlist]
  split
  · exact List.prefix_rfl
  · exact List.prefix_append xs [x]

theorem nodup_enlist {xs : List α} (h : xs.Nodup) (x : α) : (enlist xs x).Nodup := by
  rw [enlist]
  split
  · exact h
  · rename_i hx
    rw [List.nodup_append]
    refine ⟨h, List.pairwise_singleton _ x, fun a ha b hb hab => hx ?_⟩
    rw [← List.mem_singleton.mp hb, ← hab]
    exact ha

theorem mem_foldl_enlist {xs ys : List α} {y : α} : y ∈ ys.foldl enlist xs ↔ y ∈ xs ∨ y ∈ ys := by
  induction ys generalizing xs with
  | nil => simp
  | cons x ys ih => rw [List.foldl_cons, ih, mem_enlist, List.mem_cons, or_assoc]

theorem nodup_foldl_enlist {xs : List α} (h : xs.Nodup) (ys : List α) :
    (ys.foldl enlist xs).Nodup := by
  induction ys generalizing xs with
  | nil => exact h
  | cons y ys ih => exact ih (nodup_enlist h y)

theorem foldl_enlist_extends (xs ys : List α) : xs <+: ys.foldl enlist xs := by
  induction ys generalizing xs with
  | nil => exact List.prefix_rfl
  | cons y ys ih => exact (enlist_extends xs y).trans (ih (enlist xs y))

end Enlist

namespace Graph

variable {g : Graph} {slot : OperandId → Slot} {us : List OperandId} {o : OperandId}

theorem isTemporary_eq_false {v : Value} (h : g.literal? o = some v) : g.isTemporary o = false := by
  rw [literal?] at h
  rw [isTemporary]
  split at h
  · rename_i ho
    rw [ho]
  · cases h

theorem literal?_eq_none (h : g.isTemporary o = true) : g.literal? o = none := by
  cases hv : g.literal? o with
  | none => rfl
  | some v =>
    rw [isTemporary_eq_false hv] at h
    cases h

theorem mem_constants {c : Constant} : c ∈ g.constants slot us ↔
    c.operand ∈ us ∧ c.slot = slot c.operand ∧ g.literal? c.operand = some c.value := by
  simp only [constants, List.mem_filterMap, mem_foldl_enlist, List.not_mem_nil, false_or,
    Option.map_eq_some_iff]
  constructor
  · rintro ⟨o, ho, v, hv, rfl⟩
    exact ⟨ho, rfl, hv⟩
  · rintro ⟨ho, hSlot, hv⟩
    exact ⟨c.operand, ho, c.value, hv, by rw [← hSlot]⟩

theorem constants_append_of_mem (ho : o ∈ us) :
    g.constants slot (us ++ [o]) = g.constants slot us := by
  have hMem : o ∈ us.foldl enlist [] := mem_foldl_enlist.mpr (.inr ho)
  rw [constants, List.foldl_append, List.foldl_cons, List.foldl_nil, enlist, if_pos hMem, constants]

theorem constants_append_literal {v : Value} (ho : o ∉ us) (hv : g.literal? o = some v) :
    g.constants slot (us ++ [o]) = g.constants slot us ++ [⟨o, slot o, v⟩] := by
  have hNew : o ∉ us.foldl enlist [] := fun h => (mem_foldl_enlist.mp h).elim (fun h => nomatch h) ho
  rw [constants, List.foldl_append, List.foldl_cons, List.foldl_nil, enlist, if_neg hNew,
    List.filterMap_append, constants, List.filterMap_cons, hv]
  rfl

theorem constants_append_other (hv : g.literal? o = none) :
    g.constants slot (us ++ [o]) = g.constants slot us := by
  by_cases ho : o ∈ us
  · exact constants_append_of_mem ho
  · have hNew : o ∉ us.foldl enlist [] := fun h => (mem_foldl_enlist.mp h).elim (fun h => nomatch h) ho
    rw [constants, List.foldl_append, List.foldl_cons, List.foldl_nil, enlist, if_neg hNew,
      List.filterMap_append, constants, List.filterMap_cons, hv]
    exact List.append_nil _

theorem mem_slotTable {e : OperandId × Slot} (h : e ∈ (g.slotTable slot us).entries) :
    e.1 ∈ us ∧ g.isTemporary e.1 = true ∧ e.2 = slot e.1 := by
  obtain ⟨o, ho, rfl⟩ := List.mem_map.mp (SlotTable.mem_ofList h)
  obtain ⟨hUse, hTemporary⟩ := List.mem_filter.mp ho
  exact ⟨hUse, hTemporary, rfl⟩

theorem slotTable_append_temporary (ho : g.isTemporary o = true) :
    g.slotTable slot (us ++ [o]) = (g.slotTable slot us).insert o (slot o) := by
  simp [slotTable, SlotTable.ofList, ho]

theorem slotTable_append_other (ho : g.isTemporary o = false) :
    g.slotTable slot (us ++ [o]) = g.slotTable slot us := by
  simp [slotTable, ho]

end Graph

theorem Action.length_joinCode (result joined : Slot) (parts spare : List Slot)
    (h : spare.length = parts.length) :
    (joinCode result joined parts spare).length = spare.length + 1 := by
  induction parts generalizing joined spare with
  | nil =>
    rw [List.eq_nil_of_length_eq_zero h]
    rfl
  | cons part parts ih =>
    cases spare with
    | nil => cases h
    | cons next spare =>
      rw [joinCode, List.length_cons, ih next spare (Nat.succ.inj h), List.length_cons]

theorem Action.length_code {g : Graph} {a : Action} (ha : a.Lowerable g) (pl : Placement)
    {spare : List Slot} (h : spare.length = a.joints) : (a.code pl spare).length = a.joints + 1 := by
  have hSupported := ha.supported
  cases a with
  | binary op left right result =>
    obtain ⟨f, hf⟩ := Option.isSome_iff_exists.mp hSupported
    simp [code, joints, hf]
  | concatList parts result =>
    cases parts with
    | nil => cases hSupported
    | cons first rest =>
      have hLength : spare.length = (rest.map pl.slot).length := by simpa [joints] using h
      rw [code, length_joinCode _ _ _ _ hLength, h]
  | assign | constFetch | jump | branch | echo => rfl
  | call | declare | ret => cases hSupported

theorem Graph.length_eq_of_joints {g : Graph} {origins : List BlockId}
    {spares : List (List (List Slot))}
    (h : spares.map (·.map List.length) = origins.map fun b => (g.nodes b).map (·.action.joints)) :
    origins.length = spares.length := by
  have hLengths := congrArg List.length h
  rw [List.length_map, List.length_map] at hLengths
  exact hLengths.symm

theorem Node.codes_nil (pl : Placement) (spares : List (List Slot)) :
    Node.codes pl [] spares = [] := by
  cases spares <;> rfl

theorem Node.length_codes {g : Graph} {nodes : List Node} (pl : Placement)
    {spares : List (List Slot)} (hNodes : ∀ n ∈ nodes, n.action.Lowerable g)
    (hSpares : spares.map List.length = nodes.map (·.action.joints)) :
    (Node.codes pl nodes spares).length = (Node.lines nodes).length := by
  induction nodes generalizing spares with
  | nil =>
    rw [List.map_eq_nil_iff.mp hSpares]
    rfl
  | cons node nodes ih =>
    cases spares with
    | nil => cases hSpares
    | cons spare spares =>
      obtain ⟨hHead, hTail⟩ := List.cons.inj hSpares
      have hRest := ih (fun n hn => hNodes n (List.mem_cons_of_mem node hn)) hTail
      have hFirst := Action.length_code (hNodes node List.mem_cons_self) pl hHead
      simp only [codes, lines, List.flatMap_cons, List.length_append, List.length_replicate] at hRest ⊢
      omega

end BlockMachine
