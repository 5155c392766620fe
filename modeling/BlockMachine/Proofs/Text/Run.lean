import Mathlib.Data.List.TakeWhile

/-!
# Runs
A run is a list of elements of one kind with something else behind it, or nothing. It shows where it
ends.
-/

namespace BlockMachine.Text
set_option autoImplicit false

variable {α : Type} {kind : α → Bool} {run other rest tail : List α}

theorem takeWhile_run (hRun : ∀ x ∈ run, kind x) (hStop : ∀ x ∈ rest.head?, ¬ kind x) :
    (run ++ rest).takeWhile kind = run := by
  rw [List.takeWhile_append_of_pos hRun]
  cases rest with
  | nil => exact List.append_nil run
  | cons x rest => rw [List.takeWhile_cons_of_neg (hStop x rfl), List.append_nil]

theorem dropWhile_run (hRun : ∀ x ∈ run, kind x) (hStop : ∀ x ∈ rest.head?, ¬ kind x) :
    (run ++ rest).dropWhile kind = rest := by
  rw [List.dropWhile_append_of_pos hRun]
  cases rest with
  | nil => rfl
  | cons x rest => rw [List.dropWhile_cons_of_neg (hStop x rfl)]

theorem run_inj (hRun : ∀ x ∈ run, kind x) (hOther : ∀ x ∈ other, kind x)
    (hStop : ∀ x ∈ rest.head?, ¬ kind x) (hTail : ∀ x ∈ tail.head?, ¬ kind x)
    (h : run ++ rest = other ++ tail) : run = other ∧ rest = tail := by
  have hTake := congrArg (List.takeWhile kind) h
  have hDrop := congrArg (List.dropWhile kind) h
  rw [takeWhile_run hRun hStop, takeWhile_run hOther hTail] at hTake
  rw [dropWhile_run hRun hStop, dropWhile_run hOther hTail] at hDrop
  exact ⟨hTake, hDrop⟩

end BlockMachine.Text
