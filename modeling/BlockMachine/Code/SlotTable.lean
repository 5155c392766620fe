import BlockMachine.Code.Instr
import BlockMachine.Graph.Operand

/-!
# Slot tables
A finite map from operands to slots. Its entries ascend by operand, so two tables with the same
entries are equal, and a table has one listing.
-/

namespace BlockMachine
set_option autoImplicit false

def SlotTable.Ascending (entries : List (OperandId × Slot)) : Prop :=
  entries.Pairwise fun a b => a.1.val < b.1.val

structure SlotTable where
  entries : List (OperandId × Slot)
  ascending : SlotTable.Ascending entries
  deriving DecidableEq

namespace SlotTable

def empty : SlotTable := ⟨[], List.Pairwise.nil⟩

def insertEntry (o : OperandId) (s : Slot) : List (OperandId × Slot) → List (OperandId × Slot)
  | [] => [(o, s)]
  | e :: es =>
    if o.val < e.1.val then (o, s) :: e :: es
    else if o.val = e.1.val then (o, s) :: es
    else e :: insertEntry o s es

theorem mem_insertEntry {o : OperandId} {s : Slot} {es : List (OperandId × Slot)}
    {e : OperandId × Slot} (h : e ∈ insertEntry o s es) : e = (o, s) ∨ e ∈ es := by
  induction es with
  | nil => simpa [insertEntry] using h
  | cons d ds ih =>
    simp only [insertEntry] at h
    split at h
    · simpa using h
    · split at h
      · rcases List.mem_cons.mp h with h | h
        · exact .inl h
        · exact .inr (List.mem_cons_of_mem _ h)
      · rcases List.mem_cons.mp h with h | h
        · exact .inr (h ▸ List.mem_cons_self)
        · exact (ih h).imp id (List.mem_cons_of_mem _)

theorem ascending_insertEntry (o : OperandId) (s : Slot) {es : List (OperandId × Slot)}
    (h : Ascending es) : Ascending (insertEntry o s es) := by
  induction es with
  | nil => exact List.pairwise_singleton _ _
  | cons d ds ih =>
    obtain ⟨hd, hds⟩ := List.pairwise_cons.mp h
    simp only [insertEntry]
    split
    · rename_i hlt
      refine List.pairwise_cons.mpr ⟨fun e he => ?_, h⟩
      rcases List.mem_cons.mp he with rfl | he
      · exact hlt
      · exact Nat.lt_trans hlt (hd e he)
    · split
      · rename_i heq
        exact List.pairwise_cons.mpr ⟨fun e he => heq ▸ hd e he, hds⟩
      · rename_i hlt hne
        refine List.pairwise_cons.mpr ⟨fun e he => ?_, ih hds⟩
        rcases mem_insertEntry he with rfl | he
        · exact Nat.lt_of_le_of_ne (Nat.le_of_not_lt hlt) (Ne.symm hne)
        · exact hd e he

def insert (t : SlotTable) (o : OperandId) (s : Slot) : SlotTable :=
  ⟨insertEntry o s t.entries, ascending_insertEntry o s t.ascending⟩

/-- Enters pairs in order; a later pair of the same operand wins. -/
def ofList (pairs : List (OperandId × Slot)) : SlotTable :=
  pairs.foldl (fun t p => t.insert p.1 p.2) empty

def size (t : SlotTable) : Nat := t.entries.length

end SlotTable

end BlockMachine
