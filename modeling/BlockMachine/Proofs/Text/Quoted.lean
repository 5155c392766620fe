import BlockMachine.Proofs.Text.Form
import BlockMachine.Text.Quoted

/-!
# Quoted text shows its characters
An escaped character shows which one it is and where it ends, so a quoted text determines the text.
It stays on its line.
-/

namespace BlockMachine.Quoted
set_option autoImplicit false

/-- The letters after a backslash and the characters they stand for. -/
def letters : List (Char × Char) :=
  [('"', '"'), ('\\', '\\'), ('t', '\t'), ('n', '\n'), ('r', '\r'), ('0', '\x00')]

theorem letters_inj {k c d : Char} (hc : (k, c) ∈ letters) (hd : (k, d) ∈ letters) : c = d := by
  have hAll : ∀ x ∈ letters, ∀ y ∈ letters, x.1 = y.1 → x.2 = y.2 := by decide
  exact hAll _ hc _ hd rfl

theorem letter_ne {k c : Char} (h : (k, c) ∈ letters) : k ≠ 'u' ∧ k ≠ '\n' := by
  have hAll : ∀ x ∈ letters, x.1 ≠ 'u' ∧ x.1 ≠ '\n' := by decide
  exact hAll _ h

/-- A backslash and a letter, a code point, or the character itself. -/
inductive Escaped (c : Char) : List Char → Prop where
  | letter {k : Char} (h : (k, c) ∈ letters) : Escaped c ['\\', k]
  | codePoint : Escaped c (codePoint c)
  | plain (hBackslash : c ≠ '\\') (hFeed : c ≠ '\n') : Escaped c [c]

theorem escaped (c : Char) : Escaped c (escape c) := by
  rw [escape]
  split_ifs with hQuote hBackslash hTab hFeed hReturn hNull hHidden
  · exact .letter (by subst hQuote; decide)
  · exact .letter (by subst hBackslash; decide)
  · exact .letter (by subst hTab; decide)
  · exact .letter (by subst hFeed; decide)
  · exact .letter (by subst hReturn; decide)
  · exact .letter (by subst hNull; decide)
  · exact .codePoint
  · exact .plain hBackslash hFeed

theorem codePoint_append_inj {c d : Char} {s t : List Char}
    (h : codePoint c ++ s = codePoint d ++ t) : c = d ∧ s = t := by
  simp only [codePoint, List.append_assoc] at h
  have hTail := List.append_cancel_left h
  have hDigits (e : Char) : ∀ x ∈ Nat.toDigits 16 e.toNat, (x != '\x7d') = true := by
    intro x hx
    obtain ⟨n, -, rfl⟩ := Text.exists_of_mem_toDigits (by decide) hx
    exact bne_iff_ne.mpr (Nat.digitChar_ne '\x7d' rfl)
  have hBrace (u : List Char) : ∀ x ∈ (['\x7d'] ++ u).head?, ¬ (x != '\x7d') = true := by
    rintro x ⟨⟩
    decide
  obtain ⟨hNumber, hRest⟩ := Text.run_inj (hDigits c) (hDigits d) (hBrace s) (hBrace t) hTail
  exact ⟨Char.toNat_inj.mp (Text.toDigits_inj (by decide) (by decide) hNumber),
    List.append_cancel_left hRest⟩

theorem escape_append_inj {c d : Char} {s t : List Char} (h : escape c ++ s = escape d ++ t) :
    c = d ∧ s = t := by
  have hc := escaped c
  have hd := escaped d
  generalize escape c = u at h hc
  generalize escape d = v at h hd
  cases hc with
  | letter hk =>
    cases hd with
    | letter hl =>
      obtain ⟨-, hTail⟩ := List.cons.inj h
      obtain ⟨rfl, hRest⟩ := List.cons.inj hTail
      exact ⟨letters_inj hk hl, hRest⟩
    | codePoint => exact absurd (List.cons.inj (List.cons.inj h).2).1 (letter_ne hk).1
    | plain hBackslash _ => exact absurd (List.cons.inj h).1.symm hBackslash
  | codePoint =>
    cases hd with
    | letter hl => exact absurd (List.cons.inj (List.cons.inj h).2).1.symm (letter_ne hl).1
    | codePoint => exact codePoint_append_inj h
    | plain hBackslash _ => exact absurd (List.cons.inj h).1.symm hBackslash
  | plain hBackslash _ =>
    cases hd with
    | letter _ => exact absurd (List.cons.inj h).1 hBackslash
    | codePoint => exact absurd (List.cons.inj h).1 hBackslash
    | plain _ _ => exact List.cons.inj h

theorem escape_ne_nil (c : Char) : escape c ≠ [] := by
  have hc := escaped c
  generalize escape c = u at hc
  cases hc <;> exact List.cons_ne_nil _ _

theorem feed_not_mem_escape (c : Char) : '\n' ∉ escape c := by
  have hc := escaped c
  generalize escape c = u at hc
  cases hc with
  | letter hk => simpa using (letter_ne hk).2.symm
  | codePoint =>
    intro hFeed
    simp only [codePoint, List.mem_append] at hFeed
    rcases hFeed with (hFeed | hFeed) | hFeed
    · exact absurd hFeed (by decide)
    · obtain ⟨n, -, hn⟩ := Text.exists_of_mem_toDigits (by decide) hFeed
      exact absurd hn.symm (Nat.digitChar_ne '\n' rfl)
    · exact absurd hFeed (by decide)
  | plain _ hFeed => simpa using hFeed.symm

theorem flatMap_escape_inj {cs ds : List Char} (h : cs.flatMap escape = ds.flatMap escape) :
    cs = ds := by
  induction cs generalizing ds with
  | nil =>
    cases ds with
    | nil => rfl
    | cons d ds => exact absurd (List.append_eq_nil_iff.mp h.symm).1 (escape_ne_nil d)
  | cons c cs ih =>
    cases ds with
    | nil => exact absurd (List.append_eq_nil_iff.mp h).1 (escape_ne_nil c)
    | cons d ds =>
      obtain ⟨rfl, hRest⟩ := escape_append_inj h
      rw [ih hRest]

end BlockMachine.Quoted

namespace BlockMachine

theorem quoted_inj {s t : String} (h : quoted s = quoted t) : s = t := by
  have hChars : Quoted.quoteChars s.toList = Quoted.quoteChars t.toList := String.ofList_injective h
  exact String.toList_inj.mp (Quoted.flatMap_escape_inj
    (List.append_cancel_right (List.cons.inj hChars).2))

theorem feed_not_mem_quoted (s : String) : '\n' ∉ (quoted s).toList := by
  rw [quoted, String.toList_ofList, Quoted.quoteChars, List.cons_append, List.mem_cons,
    List.mem_append, List.mem_flatMap]
  rintro (hFeed | ⟨c, -, hFeed⟩ | hFeed)
  · exact absurd hFeed (by decide)
  · exact Quoted.feed_not_mem_escape c hFeed
  · exact absurd hFeed (by decide)

end BlockMachine
