import BlockMachine.Lowering.Rendering
import BlockMachine.Proofs.Machine.Passage
import BlockMachine.Proofs.Machine.Scope

/-!
# Joining
The chain that joins a list of parts, run on a scope: its result is the text of all parts, and
beside the result it touches nothing but its spare slots.
-/

namespace BlockMachine
set_option autoImplicit false

namespace Value

def join (first : Value) (rest : List Value) : Value :=
  rest.foldl (fun joined next => .string (joined.toBytes ++ next.toBytes)) first

theorem toBytes_join (first : Value) (rest : List Value) :
    (first.join rest).toBytes = (first :: rest).flatMap toBytes := by
  induction rest generalizing first with
  | nil => exact (List.append_nil _).symm
  | cons next rest ih =>
    have hFirst := ih (.string (first.toBytes ++ next.toBytes))
    rw [join, List.foldl_cons]
    rw [join] at hFirst
    rw [hFirst, List.flatMap_cons, List.flatMap_cons, List.flatMap_cons, toBytes,
      List.append_assoc]

theorem join_cons (first next : Value) (rest : List Value) :
    first.join (next :: rest) = .string ((first :: next :: rest).flatMap toBytes) := by
  have hString (bytes : List UInt8) : ∃ text, (Value.string bytes).join rest = .string text := by
    induction rest generalizing bytes with
    | nil => exact ⟨bytes, rfl⟩
    | cons last rest ih => exact ih _
  obtain ⟨text, hText⟩ := hString (first.toBytes ++ next.toBytes)
  have hBytes := toBytes_join first (next :: rest)
  have hJoin : first.join (next :: rest) = .string text := hText
  rw [hJoin, toBytes] at hBytes
  rw [hJoin, hBytes]

end Value

namespace Action

open Machine

variable (constants : Constants) {result : Slot}

theorem quiet_store {scope : Scope} {joined : Slot} {x : Value} (hResult : result < scope.size)
    (hJoined : scope[joined]? = some x) :
    ∃ after, Quiet constants [.assign result result joined] scope after ∧
      after.size = scope.size ∧ after[result]? = some x ∧
      ∀ s, s ≠ result → after[s]? = scope[s]? := by
  have hEffect : (Instr.assign result result joined).effect constants scope [] =
      .ok (.store [(result, x), (result, x)]) [] := by
    rw [Instr.effect, Scope.read_of_some hJoined]
    rfl
  have hWrite : scope.writeAll [(result, x), (result, x)] =
      .ok ((scope.setIfInBounds result x).setIfInBounds result x) := by
    rw [Scope.writeAll_cons_of_lt hResult,
      Scope.writeAll_cons_of_lt (by rwa [Array.size_setIfInBounds]), Scope.writeAll]
  refine ⟨_, .cons hEffect hWrite (.nil _), ?_, ?_, ?_⟩
  · rw [Array.size_setIfInBounds, Array.size_setIfInBounds]
  · rw [Array.getElem?_setIfInBounds_self_of_lt (by rwa [Array.size_setIfInBounds])]
  · intro s hs
    rw [Array.getElem?_setIfInBounds_ne hs.symm, Array.getElem?_setIfInBounds_ne hs.symm]

theorem quiet_joint {scope after : Scope} {next joined part : Slot} {x y : Value} {is : List Instr}
    (hNext : next < scope.size) (hJoined : scope[joined]? = some x) (hPart : scope[part]? = some y)
    (hRest : Quiet constants is
      (scope.setIfInBounds next (.string (x.toBytes ++ y.toBytes))) after) :
    Quiet constants (.binary .concat next joined part :: is) scope after := by
  have hEffect : (Instr.binary .concat next joined part).effect constants scope [] =
      .ok (.store [(next, .string (x.toBytes ++ y.toBytes))]) [] := by
    rw [Instr.effect, Operator.eval, Scope.read_of_some hJoined, Scope.read_of_some hPart]
    rfl
  have hWrite : scope.writeAll [(next, .string (x.toBytes ++ y.toBytes))] =
      .ok (scope.setIfInBounds next (.string (x.toBytes ++ y.toBytes))) := by
    rw [Scope.writeAll_cons_of_lt hNext, Scope.writeAll]
  exact .cons hEffect hWrite hRest

theorem joinCode_quiet {scope : Scope} {joined : Slot} {parts spare : List Slot} {x : Value}
    {values : List Value} (hLength : spare.length = parts.length) (hResult : result < scope.size)
    (hJoined : scope[joined]? = some x) (hParts : parts.map (scope[·]?) = values.map some)
    (hApart : ∀ s ∈ parts, s ∉ spare) (hNodup : spare.Nodup)
    (hBound : ∀ s ∈ spare, s < scope.size) :
    ∃ after, Quiet constants (joinCode result joined parts spare) scope after ∧
      after.size = scope.size ∧ after[result]? = some (x.join values) ∧
      ∀ s, s ≠ result → s ∉ spare → after[s]? = scope[s]? := by
  induction parts generalizing scope joined spare x values with
  | nil =>
    have hValues : values = [] := by
      cases values with
      | nil => rfl
      | cons _ _ => cases hParts
    subst hValues
    obtain ⟨after, hQuiet, hSize, hValue, hOther⟩ := quiet_store constants hResult hJoined
    exact ⟨after, hQuiet, hSize, hValue, fun s hs _ => hOther s hs⟩
  | cons part parts ih =>
    cases spare with
    | nil => cases hLength
    | cons next spare =>
      cases values with
      | nil => cases hParts
      | cons y values =>
        rw [List.map_cons, List.map_cons] at hParts
        obtain ⟨hPart, hParts⟩ := List.cons.inj hParts
        obtain ⟨hNext, hBound⟩ := List.forall_mem_cons.mp hBound
        obtain ⟨hNew, hNodup⟩ := List.nodup_cons.mp hNodup
        have hOld (s : Slot) (hs : s ∈ parts) : s ≠ next ∧ s ∉ spare := by
          have hMem := hApart s (List.mem_cons_of_mem part hs)
          rwa [List.mem_cons, not_or] at hMem
        have hSize : (scope.setIfInBounds next (.string (x.toBytes ++ y.toBytes))).size =
            scope.size := Array.size_setIfInBounds
        have hRest : parts.map
            (fun s => (scope.setIfInBounds next (.string (x.toBytes ++ y.toBytes)))[s]?) =
              values.map some := by
          rw [← hParts]
          refine List.map_congr_left fun s hs => ?_
          exact Array.getElem?_setIfInBounds_ne (hOld s hs).1.symm
        obtain ⟨after, hQuiet, hAfter, hValue, hOther⟩ := ih (Nat.succ.inj hLength)
          (hSize.symm ▸ hResult) (Array.getElem?_setIfInBounds_self_of_lt hNext) hRest
          (fun s hs => (hOld s hs).2) hNodup (fun s hs => hSize.symm ▸ hBound s hs)
        refine ⟨after, quiet_joint constants hNext hJoined hPart hQuiet, hAfter.trans hSize, hValue, ?_⟩
        intro s hs hFar
        rw [List.mem_cons, not_or] at hFar
        rw [hOther s hs hFar.2]
        exact Array.getElem?_setIfInBounds_ne (Ne.symm hFar.1)

end Action

end BlockMachine
