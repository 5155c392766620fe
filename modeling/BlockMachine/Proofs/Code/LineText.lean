import BlockMachine.Code.Listed
import BlockMachine.Proofs.Text.Quoted

/-!
# The texts in a listing
The text of an instruction or a value determines it, whatever comes after it on the line, and none
of them has a line feed.
-/

namespace BlockMachine
set_option autoImplicit false

open Text

variable {s t : List Char}

namespace Instr

/-- What the mnemonic of an instruction tells. -/
inductive Kind where
  | echo
  | assign
  | binary (op : Operator)
  | constFetch
  | jump
  | branch
  deriving DecidableEq

namespace Kind

def mnemonic : Kind → String
  | echo => "ECHO"
  | assign => "ASSIGN"
  | binary op => op.mnemonic
  | constFetch => "CONST_FETCH"
  | jump => "JUMP"
  | branch => "JUMP_IF"

def labels : Kind → List String
  | echo => ["r"]
  | assign => ["r", ", r", " ← r"]
  | binary _ => ["r", " ← r", ", r"]
  | constFetch => ["r", " ← const(r"]
  | jump => ["→ block"]
  | branch => ["r", " ? → block", " : → block"]

def all : List Kind :=
  [echo, assign, binary .concat, binary (.arithmetic .plus), binary (.arithmetic .minus),
    binary (.arithmetic .mul), binary (.comparison .smaller), binary (.comparison .smallerOrEqual),
    binary (.comparison .greater), binary (.comparison .greaterOrEqual), binary .equal,
    binary .notEqual, constFetch, jump, branch]

theorem mem_all (k : Kind) : k ∈ all := by
  rcases k with _ | _ | (_ | (_ | _ | _) | (_ | _ | _ | _) | _ | _) | _ | _ | _ <;> decide

theorem mnemonic_inj {k l : Kind} (h : k.mnemonic = l.mnemonic) : k = l := by
  have hAll : ∀ k ∈ all, ∀ l ∈ all, k.mnemonic = l.mnemonic → k = l := by decide +kernel
  exact hAll k (mem_all k) l (mem_all l) h

theorem mnemonic_char {k : Kind} {c : Char} (hc : c ∈ k.mnemonic.toList) : c ≠ ' ' ∧ c ≠ '\n' := by
  have hAll : all.all fun k => k.mnemonic.toList.all fun c => c != ' ' && c != '\n' := by
    decide +kernel
  have hChar := List.all_eq_true.mp (List.all_eq_true.mp hAll k (mem_all k)) c hc
  rw [Bool.and_eq_true, bne_iff_ne, bne_iff_ne] at hChar
  exact hChar

theorem length_mnemonic_lt (k : Kind) : k.mnemonic.length < 12 := by
  have hAll : ∀ k ∈ all, k.mnemonic.length < 12 := by decide +kernel
  exact hAll k (mem_all k)

theorem labels_spec (k : Kind) : ∀ label ∈ k.labels, opens label ∧ '\n' ∉ label.toList := by
  cases k <;> simp only [labels] <;> decide

end Kind

def kind : Instr → Kind
  | .echo _ => .echo
  | .assign _ _ _ => .assign
  | .binary op _ _ _ => .binary op
  | .constFetch _ _ _ => .constFetch
  | .jump _ => .jump
  | .branch _ _ _ => .branch

def numbers : Instr → List Nat
  | .echo value => [value]
  | .assign result var expr => [result, var, expr]
  | .binary _ result left right => [result, left, right]
  | .constFetch result name qualified => [result, qualified.getD name]
  | .jump target => [target.index]
  | .branch cond ifTrue ifFalse => [cond, ifTrue.index, ifFalse.index]

def ending : Instr → List Char
  | .constFetch _ name (some _) => fill [" | r"] [name] ++ [')']
  | .constFetch _ _ none => [')']
  | _ => []

theorem kind_mnemonic (i : Instr) : i.kind.mnemonic = i.mnemonic := by cases i <;> rfl

theorem toList_text (i : Instr) : i.text.toList =
    i.mnemonic.toList ++ (List.replicate (12 - i.mnemonic.length) ' ' ++
      (fill i.kind.labels i.numbers ++ i.ending)) := by
  have hSpaces (n : Nat) : (spaces n).toList = List.replicate n ' ' := String.toList_ofList
  rcases i with _ | _ | _ | ⟨_, _, _ | _⟩ | _ | _ <;>
    simp [text, hSpaces, fill, kind, Kind.labels, numbers, ending, Label.text, toString]

theorem stops_ending {i : Instr} (hs : Stops s) : Stops (i.ending ++ s) := by
  rcases i with _ | _ | _ | ⟨_, _, _ | _⟩ | _ | _
  case constFetch.none | constFetch.some =>
    rintro c ⟨⟩
    decide
  all_goals exact hs

theorem kind_eq_of_text {i j : Instr} (h : i.text.toList ++ s = j.text.toList ++ t) :
    i.kind = j.kind ∧ fill i.kind.labels i.numbers ++ (i.ending ++ s) =
      fill j.kind.labels j.numbers ++ (j.ending ++ t) := by
  have hWord (i : Instr) : ∀ c ∈ i.mnemonic.toList, (c != ' ') = true := by
    intro c hc
    rw [← kind_mnemonic] at hc
    exact bne_iff_ne.mpr (Kind.mnemonic_char hc).1
  have hPad (i : Instr) (u : List Char) :
      ∀ c ∈ (List.replicate (12 - i.mnemonic.length) ' ' ++ u).head?, ¬ (c != ' ') = true := by
    obtain ⟨n, hn⟩ : ∃ n, 12 - i.mnemonic.length = n + 1 :=
      Nat.exists_eq_add_one.mpr (Nat.sub_pos_of_lt (kind_mnemonic i ▸ i.kind.length_mnemonic_lt))
    rw [hn]
    rintro c ⟨⟩
    decide
  simp only [toList_text, List.append_assoc] at h
  obtain ⟨hChars, hTail⟩ := run_inj (hWord i) (hWord j) (hPad i _) (hPad j _) h
  have hMnemonic : i.mnemonic = j.mnemonic := String.toList_inj.mp hChars
  have hKind : i.kind = j.kind :=
    Kind.mnemonic_inj (by rw [kind_mnemonic, kind_mnemonic, hMnemonic])
  rw [hMnemonic] at hTail
  exact ⟨hKind, List.append_cancel_left hTail⟩

theorem ending_append_inj {result name result' name' : Slot} {qualified qualified' : Option Slot}
    (h : (constFetch result name qualified).ending ++ s =
      (constFetch result' name' qualified').ending ++ t)
    (hNumber : qualified.getD name = qualified'.getD name') :
    name = name' ∧ qualified = qualified' ∧ s = t := by
  cases qualified with
  | none =>
    cases qualified' with
    | none => exact ⟨hNumber, rfl, List.append_cancel_left h⟩
    | some _ => exact absurd (List.cons.inj h).1 (by decide)
  | some q =>
    cases qualified' with
    | none => exact absurd (List.cons.inj h).1 (by decide)
    | some r =>
      have hStops (u : List Char) : Stops ([')'] ++ u) := by
        rintro c ⟨⟩
        decide
      simp only [ending, List.append_assoc] at h
      obtain ⟨hName, hRest⟩ := fill_append_inj (by decide) rfl rfl (hStops s) (hStops t) h
      exact ⟨(List.cons.inj hName).1, congrArg some hNumber, List.append_cancel_left hRest⟩

theorem text_append_inj {i j : Instr} (hs : Stops s) (ht : Stops t)
    (h : i.text.toList ++ s = j.text.toList ++ t) : i = j ∧ s = t := by
  obtain ⟨hKind, hOperands⟩ := kind_eq_of_text h
  have hLength (k : Instr) : k.numbers.length = k.kind.labels.length := by cases k <;> rfl
  rw [← hKind] at hOperands
  obtain ⟨hNumbers, hEnding⟩ := fill_append_inj (fun label hl => (i.kind.labels_spec label hl).1)
    (hLength i) (hKind ▸ hLength j) (stops_ending hs) (stops_ending ht) hOperands
  cases i with
  | constFetch result name qualified =>
    cases j with
    | constFetch result' name' qualified' =>
      obtain ⟨rfl, hSecond⟩ := List.cons.inj hNumbers
      obtain ⟨rfl, rfl, hRest⟩ := ending_append_inj hEnding (List.cons.inj hSecond).1
      exact ⟨rfl, hRest⟩
    | _ => cases hKind
  | jump target =>
    cases j with
    | jump target' =>
      have hTarget : target = target' := congrArg Label.mk (List.cons.inj hNumbers).1
      exact ⟨congrArg jump hTarget, hEnding⟩
    | _ => cases hKind
  | branch cond ifTrue ifFalse =>
    cases j with
    | branch cond' ifTrue' ifFalse' =>
      simp only [numbers, List.cons.injEq, and_true] at hNumbers
      obtain ⟨rfl, hTrue, hFalse⟩ := hNumbers
      have hTrue : ifTrue = ifTrue' := congrArg Label.mk hTrue
      have hFalse : ifFalse = ifFalse' := congrArg Label.mk hFalse
      rw [hTrue, hFalse]
      exact ⟨rfl, hEnding⟩
    | _ => cases hKind
  | _ =>
    cases j <;> cases hKind
    cases hNumbers
    exact ⟨rfl, hEnding⟩

theorem feed_not_mem_text (i : Instr) : '\n' ∉ i.text.toList := by
  have hEnding : '\n' ∉ i.ending := by
    rcases i with _ | _ | _ | ⟨_, _, _ | _⟩ | _ | _
    case constFetch.some =>
      rw [ending, List.mem_append]
      exact fun h => h.elim (feed_not_mem_fill (by decide)) (by decide)
    all_goals simp [ending]
  rw [toList_text]
  simp only [List.mem_append, List.mem_replicate]
  rintro (hFeed | ⟨-, hFeed⟩ | hFeed | hFeed)
  · rw [← kind_mnemonic] at hFeed
    exact (Kind.mnemonic_char hFeed).2 rfl
  · exact absurd hFeed (by decide)
  · exact feed_not_mem_fill (fun label hl => (i.kind.labels_spec label hl).2) hFeed
  · exact hEnding hFeed

end Instr

namespace Decimal

theorem ofInt_inj {m n : Int} (h : ofInt m = ofInt n) : m = n := by
  have hHead (k : Nat) (cs : List Char) : Nat.toDigits 10 k ≠ '-' :: cs := by
    intro hDigits
    have hMinus : '-' ∈ Nat.toDigits 10 k := hDigits ▸ List.mem_cons_self
    exact absurd (isDigit_of_mem hMinus) (by decide)
  rw [ofInt, ofInt] at h
  split_ifs at h with hm hn hn
  · have hAbs := toDigits_inj (by decide) (by decide) (List.cons.inj h).2
    omega
  · exact absurd h.symm (hHead _ _)
  · exact absurd h (hHead _ _)
  · have hAbs := toDigits_inj (by decide) (by decide) h
    omega

theorem mem_ofInt {n : Int} {c : Char} (h : c ∈ ofInt n) : c = '-' ∨ c.isDigit := by
  rw [ofInt] at h
  split at h
  · exact (List.mem_cons.mp h).imp_right isDigit_of_mem
  · exact .inr (isDigit_of_mem h)

end Decimal

namespace Value

def typeAt : Option Char → ValueType
  | some '<' => .unknown
  | some '"' => .string
  | some 't' | some 'f' => .boolean
  | _ => .integer

theorem typeAt_text (v : Value) : typeAt v.text.toList.head? = v.type := by
  cases v with
  | unknown => rfl
  | string bytes =>
    rw [text, quoted, String.toList_ofList]
    rfl
  | boolean b => cases b <;> rfl
  | integer n =>
    rw [text, Decimal.text, String.toList_ofList]
    have hHead (c : Char) (hc : ¬ (c = '-' ∨ c.isDigit)) :
        (Decimal.ofInt n.toInt).head? ≠ some c :=
      fun h => hc (Decimal.mem_ofInt (List.mem_of_mem_head? h))
    rw [typeAt]
    · rfl
    all_goals exact hHead _ (by decide)

theorem text_inj {v w : Value} (hv : v.IsText) (hw : w.IsText) (h : v.text = w.text) : v = w := by
  have hType : v.type = w.type := by rw [← typeAt_text v, ← typeAt_text w, h]
  cases v <;> cases w <;> cases hType
  case unknown => rfl
  case string bytes bytes' =>
    have hDecode : Utf8.decode bytes = Utf8.decode bytes' := quoted_inj h
    have hBytes : Utf8.WellFormed bytes := Utf8.wellFormed_iff.mpr (hv bytes rfl)
    have hBytes' : Utf8.WellFormed bytes' := Utf8.wellFormed_iff.mpr (hw bytes' rfl)
    rw [← hBytes, ← hBytes', hDecode]
  case integer m n =>
    have hChars : Decimal.ofInt m.toInt = Decimal.ofInt n.toInt := String.ofList_injective h
    rw [Int64.toInt_inj.mp (Decimal.ofInt_inj hChars)]
  case boolean b c =>
    cases b <;> cases c
    case false.false | true.true => rfl
    all_goals exact absurd h (by decide)

theorem feed_not_mem_text (v : Value) : '\n' ∉ v.text.toList := by
  cases v with
  | unknown => decide
  | string bytes => exact feed_not_mem_quoted _
  | integer n =>
    rw [text, Decimal.text, String.toList_ofList]
    exact fun h => absurd (Decimal.mem_ofInt h) (by decide)
  | boolean b => cases b <;> decide

end Value

end BlockMachine
