import BlockMachine.Proofs.Text.Decimal
import BlockMachine.Proofs.Text.Run

/-!
# Numbers in a text
The digits of a number in a base up to sixteen determine it. A form is a row of labels with a number
behind each. When no label opens with a digit, a number ends where the next label starts, so a
filled form shows its numbers and where it ends.
-/

namespace BlockMachine.Text
set_option autoImplicit false

theorem digitChar_inj {m n : Nat} (hm : m < 16) (hn : n < 16)
    (h : Nat.digitChar m = Nat.digitChar n) : m = n := by
  have hAll : ∀ a : Fin 16, ∀ b : Fin 16, Nat.digitChar a = Nat.digitChar b → a = b := by decide
  exact congrArg Fin.val (hAll ⟨m, hm⟩ ⟨n, hn⟩ h)

variable {base : Nat}

theorem exists_of_mem_toDigits (hBase : 1 < base) {n : Nat} {c : Char}
    (hc : c ∈ Nat.toDigits base n) : ∃ d < base, c = Nat.digitChar d := by
  induction n using Nat.strongRecOn with
  | ind n ih =>
    rw [Nat.toDigits_eq_if hBase] at hc
    split at hc
    · rename_i hn
      exact ⟨n, hn, List.mem_singleton.mp hc⟩
    · rename_i hn
      rcases List.mem_append.mp hc with hc | hc
      · exact ih (n / base) (Nat.div_lt_self (by omega) hBase) hc
      · exact ⟨n % base, Nat.mod_lt n (by omega), List.mem_singleton.mp hc⟩

/-- The last digit of each is its remainder, and the ones before it are those of the quotient. -/
theorem toDigits_inj (hBase : 1 < base) (hSmall : base ≤ 16) {m n : Nat}
    (h : Nat.toDigits base m = Nat.toDigits base n) : m = n := by
  induction m using Nat.strongRecOn generalizing n with
  | ind m ih =>
    have hOne (k : Nat) : (Nat.toDigits base k).length ≤ 1 ↔ k < base := by
      rw [Nat.length_toDigits_le_iff hBase Nat.one_pos, Nat.pow_one]
    have hShort : m < base ↔ n < base := by rw [← hOne, ← hOne, h]
    by_cases hm : m < base
    · have hn : n < base := hShort.mp hm
      rw [Nat.toDigits_of_lt_base hm, Nat.toDigits_of_lt_base hn] at h
      exact digitChar_inj (by omega) (by omega) (List.singleton_inj.mp h)
    · have hn : ¬ n < base := mt hShort.mpr hm
      have hSplit {k : Nat} (hk : ¬ k < base) : Nat.toDigits base k =
          Nat.toDigits base (k / base) ++ [Nat.digitChar (k % base)] := by
        rw [Nat.toDigits_eq_if hBase, if_neg hk]
      rw [hSplit hm, hSplit hn] at h
      obtain ⟨hInit, hLast⟩ := List.append_singleton_inj.mp h
      have hRemainder (k : Nat) : k % base < 16 :=
        Nat.lt_of_lt_of_le (Nat.mod_lt k (by omega)) hSmall
      have hDiv : m / base = n / base := ih (m / base) (Nat.div_lt_self (by omega) hBase) hInit
      have hMod : m % base = n % base := digitChar_inj (hRemainder m) (hRemainder n) hLast
      rw [← Nat.div_add_mod m base, hDiv, hMod, Nat.div_add_mod]

/-- The labels in order, each with its number in base ten. -/
def fill (labels : List String) (numbers : List Nat) : List Char :=
  (List.zipWith (fun label n => label.toList ++ Nat.toDigits 10 n) labels numbers).flatten

theorem fill_cons (label : String) (labels : List String) (n : Nat) (ns : List Nat) :
    fill (label :: labels) (n :: ns) = label.toList ++ (Nat.toDigits 10 n ++ fill labels ns) :=
  List.append_assoc _ _ _

def Stops (s : List Char) : Prop := ∀ c ∈ s.head?, ¬ c.isDigit

theorem stops_nil : Stops [] := fun _ hc => nomatch hc

def opens (label : String) : Bool := label.toList.head?.any fun c => !c.isDigit

variable {label : String} {labels : List String} {m n : Nat} {ms ns : List Nat} {s t : List Char}

theorem stops_of_opens (h : opens label) (s : List Char) : Stops (label.toList ++ s) := by
  rw [opens] at h
  intro c hc
  cases hLabel : label.toList with
  | nil =>
    rw [hLabel] at h
    cases h
  | cons d ds =>
    rw [hLabel] at h hc
    cases hc
    simpa using h

theorem stops_fill (hOpens : ∀ label ∈ labels, opens label) (hs : Stops s) :
    Stops (fill labels ns ++ s) := by
  cases labels with
  | nil => exact hs
  | cons label labels =>
    cases ns with
    | nil => exact hs
    | cons n ns =>
      rw [fill_cons, List.append_assoc]
      exact stops_of_opens (hOpens label List.mem_cons_self) _

theorem number_append_inj (hs : Stops s) (ht : Stops t)
    (h : Nat.toDigits 10 m ++ s = Nat.toDigits 10 n ++ t) : m = n ∧ s = t := by
  have hDigits (k : Nat) : ∀ c ∈ Nat.toDigits 10 k, c.isDigit :=
    fun c hc => Decimal.isDigit_of_mem hc
  obtain ⟨hNumber, hRest⟩ := run_inj (hDigits m) (hDigits n) hs ht h
  exact ⟨toDigits_inj (by decide) (by decide) hNumber, hRest⟩

theorem fill_append_inj (hOpens : ∀ label ∈ labels, opens label) (hm : ms.length = labels.length)
    (hn : ns.length = labels.length) (hs : Stops s) (ht : Stops t)
    (h : fill labels ms ++ s = fill labels ns ++ t) : ms = ns ∧ s = t := by
  induction labels generalizing ms ns with
  | nil =>
    rw [List.eq_nil_of_length_eq_zero hm, List.eq_nil_of_length_eq_zero hn] at h ⊢
    exact ⟨rfl, h⟩
  | cons label labels ih =>
    obtain ⟨m, ms, rfl⟩ := List.exists_cons_of_length_eq_add_one hm
    obtain ⟨n, ns, rfl⟩ := List.exists_cons_of_length_eq_add_one hn
    have hRest : ∀ other ∈ labels, opens other :=
      fun other hOther => hOpens other (List.mem_cons_of_mem label hOther)
    rw [fill_cons, fill_cons, List.append_assoc, List.append_assoc, List.append_assoc,
      List.append_assoc] at h
    obtain ⟨rfl, hTail⟩ :=
      number_append_inj (stops_fill hRest hs) (stops_fill hRest ht) (List.append_cancel_left h)
    obtain ⟨rfl, rfl⟩ := ih hRest (Nat.succ.inj hm) (Nat.succ.inj hn) hTail
    exact ⟨rfl, rfl⟩

/-- A label ends the last number, and any text may stand behind it. -/
theorem fill_label_inj {next : String} (hOpens : ∀ label ∈ next :: labels, opens label)
    (hm : ms.length = labels.length) (hn : ns.length = labels.length)
    (h : fill labels ms ++ (next.toList ++ s) = fill labels ns ++ (next.toList ++ t)) :
    ms = ns ∧ s = t := by
  obtain ⟨hNext, hLabels⟩ := List.forall_mem_cons.mp hOpens
  obtain ⟨hNumbers, hRest⟩ :=
    fill_append_inj hLabels hm hn (stops_of_opens hNext s) (stops_of_opens hNext t) h
  exact ⟨hNumbers, List.append_cancel_left hRest⟩

theorem feed_not_mem_fill (h : ∀ label ∈ labels, '\n' ∉ label.toList) :
    '\n' ∉ fill labels ns := by
  induction labels generalizing ns with
  | nil => exact List.not_mem_nil
  | cons label labels ih =>
    cases ns with
    | nil => exact List.not_mem_nil
    | cons n ns =>
      rw [fill_cons, List.mem_append, List.mem_append]
      rintro (hFeed | hFeed | hFeed)
      · exact h label List.mem_cons_self hFeed
      · exact absurd (Decimal.isDigit_of_mem hFeed) (by decide)
      · exact ih (fun other hOther => h other (List.mem_cons_of_mem label hOther)) hFeed

end BlockMachine.Text
