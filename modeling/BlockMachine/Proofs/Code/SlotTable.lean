import BlockMachine.Code.SlotTable
import Mathlib.Data.List.Nodup

/-!
# Tables from pairs
What a table that was entered pair by pair holds: none but the pairs it was given, and each operand
once, so that its entries together take no more room than the pairs. A table is known by its
entries, in whatever order they were entered.
-/

namespace BlockMachine.SlotTable
set_option autoImplicit false

variable {pairs : List (OperandId × Slot)}

theorem mem_ofList {e : OperandId × Slot} (h : e ∈ (ofList pairs).entries) : e ∈ pairs := by
  have hFold (pairs : List (OperandId × Slot)) (t : SlotTable)
      (h : e ∈ (pairs.foldl (fun t p => t.insert p.1 p.2) t).entries) : e ∈ t.entries ∨ e ∈ pairs := by
    induction pairs generalizing t with
    | nil => exact .inl h
    | cons p pairs ih =>
      rcases ih (t.insert p.1 p.2) h with h | h
      · rcases mem_insertEntry h with rfl | h
        · exact .inr List.mem_cons_self
        · exact .inl h
      · exact .inr (List.mem_cons_of_mem p h)
  exact (hFold pairs .empty h).resolve_left List.not_mem_nil

section Entries

variable {o : OperandId} {s : Slot} {es : List (OperandId × Slot)}

theorem mem_insertEntry_self : (o, s) ∈ insertEntry o s es := by
  induction es with
  | nil => simp [insertEntry]
  | cons d ds ih =>
    rw [insertEntry]
    split
    · exact List.mem_cons_self
    · split
      · exact List.mem_cons_self
      · exact List.mem_cons_of_mem d ih

theorem mem_insertEntry_of_ne {e : OperandId × Slot} (he : e ∈ es) (hNe : e.1 ≠ o) :
    e ∈ insertEntry o s es := by
  induction es with
  | nil => cases he
  | cons d ds ih =>
    rw [insertEntry]
    split
    · exact List.mem_cons_of_mem _ he
    · split
      · rename_i hVal
        rcases List.mem_cons.mp he with rfl | he
        · exact absurd (congrArg OperandId.mk hVal).symm hNe
        · exact List.mem_cons_of_mem _ he
      · rcases List.mem_cons.mp he with rfl | he
        · exact List.mem_cons_self
        · exact List.mem_cons_of_mem _ (ih he)

theorem nodup_keys (t : SlotTable) : (t.entries.map Prod.fst).Nodup := by
  refine List.Pairwise.map Prod.fst (fun a b hLt hEq => ?_) t.ascending
  rw [hEq] at hLt
  exact Nat.lt_irrefl _ hLt

theorem eq_of_mem_iff {t u : SlotTable} (h : ∀ e, e ∈ t.entries ↔ e ∈ u.entries) : t = u := by
  have hNodup (t : SlotTable) : t.entries.Nodup := t.nodup_keys.of_map Prod.fst
  have hPerm := (List.perm_ext_iff_of_nodup (hNodup t) (hNodup u)).mpr h
  have hEntries : t.entries = u.entries := hPerm.eq_of_pairwise
    (fun _ _ _ _ hLt hGt => absurd hGt (Nat.lt_asymm hLt)) t.ascending u.ascending
  cases t
  cases u
  cases hEntries
  rfl

theorem mem_insert_iff {t : SlotTable} {e : OperandId × Slot} :
    e ∈ (t.insert o s).entries ↔ e = (o, s) ∨ e.1 ≠ o ∧ e ∈ t.entries := by
  constructor
  · intro he
    by_cases hKey : e.1 = o
    · left
      exact List.inj_on_of_nodup_map (nodup_keys (t.insert o s)) he mem_insertEntry_self hKey
    · rcases mem_insertEntry he with rfl | he
      · exact absurd rfl hKey
      · exact .inr ⟨hKey, he⟩
  · rintro (rfl | ⟨hKey, he⟩)
    · exact mem_insertEntry_self
    · exact mem_insertEntry_of_ne he hKey

theorem mem_ofList_iff (h : (pairs.map Prod.fst).Nodup) {e : OperandId × Slot} :
    e ∈ (ofList pairs).entries ↔ e ∈ pairs := by
  have hFold (pairs : List (OperandId × Slot)) (t : SlotTable) (h : (pairs.map Prod.fst).Nodup) :
      e ∈ (pairs.foldl (fun t p => t.insert p.1 p.2) t).entries ↔
        e ∈ pairs ∨ e.1 ∉ pairs.map Prod.fst ∧ e ∈ t.entries := by
    induction pairs generalizing t with
    | nil => simp
    | cons p pairs ih =>
      obtain ⟨hNew, hRest⟩ := List.nodup_cons.mp h
      rw [List.foldl_cons, ih _ hRest, mem_insert_iff, List.mem_cons, List.map_cons, List.mem_cons]
      constructor
      · rintro (he | ⟨hKey, rfl | ⟨hNe, he⟩⟩)
        · exact .inl (.inr he)
        · exact .inl (.inl rfl)
        · exact .inr ⟨fun hOr => hOr.elim hNe hKey, he⟩
      · rintro ((rfl | he) | ⟨hKey, he⟩)
        · exact .inr ⟨hNew, .inl rfl⟩
        · exact .inl he
        · exact .inr ⟨fun hMem => hKey (.inr hMem), .inr ⟨fun hEq => hKey (.inl hEq), he⟩⟩
  rw [ofList, hFold pairs empty h]
  exact or_iff_left fun he => List.not_mem_nil he.2

end Entries

variable {α : Type} (write : OperandId × Slot → List α)

theorem length_flatMap_insertEntry_le (o : OperandId) (s : Slot) (es : List (OperandId × Slot)) :
    ((insertEntry o s es).flatMap write).length ≤
      (es.flatMap write).length + (write (o, s)).length := by
  induction es with
  | nil => simp [insertEntry]
  | cons e es ih =>
    rw [insertEntry]
    split
    · simp only [List.flatMap_cons, List.length_append]
      omega
    · split
      · simp only [List.flatMap_cons, List.length_append]
        omega
      · simp only [List.flatMap_cons, List.length_append]
        omega

/-- However entries are written, those of the table take no more room than all that were entered. -/
theorem length_flatMap_ofList_le (pairs : List (OperandId × Slot)) :
    ((ofList pairs).entries.flatMap write).length ≤ (pairs.flatMap write).length := by
  have hFold (pairs : List (OperandId × Slot)) (t : SlotTable) :
      ((pairs.foldl (fun t p => t.insert p.1 p.2) t).entries.flatMap write).length ≤
        (t.entries.flatMap write).length + (pairs.flatMap write).length := by
    induction pairs generalizing t with
    | nil => exact Nat.le_add_right _ _
    | cons p pairs ih =>
      have hHead : ((t.insert p.1 p.2).entries.flatMap write).length ≤
          (t.entries.flatMap write).length + (write p).length :=
        length_flatMap_insertEntry_le write p.1 p.2 t.entries
      have hRest := ih (t.insert p.1 p.2)
      rw [List.foldl_cons, List.flatMap_cons, List.length_append]
      omega
  have h := hFold pairs empty
  rwa [empty, List.flatMap_nil, List.length_nil, Nat.zero_add] at h

theorem length_ofList_le (pairs : List (OperandId × Slot)) :
    (ofList pairs).entries.length ≤ pairs.length := by
  have h := length_flatMap_ofList_le (fun e => [e]) pairs
  rwa [List.flatMap_singleton', List.flatMap_singleton'] at h

end BlockMachine.SlotTable
