import BlockMachine.Cli.Laws

/-!
# Directories as files
A directory behaves as files are expected to: a path leads to a name or nowhere, and writing a name
leaves all other names alone.
-/

namespace BlockMachine.Cli
set_option autoImplicit false

namespace Directory

theorem lookup_cons_eq (f : String × List UInt8) (files : List (String × List UInt8))
    (other : String) : (f :: files).lookup other =
      if other = f.1 then some f.2 else files.lookup other := by
  rw [List.lookup_cons]
  by_cases h : other = f.1
  · rw [if_pos h, beq_iff_eq.mpr h]
  · rw [if_neg h, beq_eq_false_iff_ne.mpr h]

theorem lookup_insertFile (name : String) (content : List UInt8)
    (files : List (String × List UInt8)) (other : String) :
    (insertFile name content files).lookup other =
      if other = name then some content else files.lookup other := by
  induction files with
  | nil => exact lookup_cons_eq (name, content) [] other
  | cons f files ih =>
    rw [insertFile]
    split
    · exact lookup_cons_eq (name, content) (f :: files) other
    · split
      · rename_i hName
        rw [lookup_cons_eq, lookup_cons_eq, hName]
        split <;> rfl
      · rename_i hName
        rw [lookup_cons_eq, lookup_cons_eq, ih]
        by_cases hOther : other = f.1
        · have hNe : other ≠ name := fun h => hName (h.symm.trans hOther)
          rw [if_pos hOther, if_pos hOther, if_neg hNe]
        · rw [if_neg hOther, if_neg hOther]

variable {d d' : Directory} {path : String} {content : List UInt8}

theorem write_eq_none (h : (d.write path content).1 = none) :
    ∃ name, Path.target path = .file name ∧
      (d.write path content).2 = ⟨insertFile name content d.files⟩ := by
  rw [write] at h ⊢
  cases hTarget : Path.target path with
  | file name => exact ⟨name, rfl, rfl⟩
  | beneath name slashesOnly | directory | outside =>
    rw [hTarget] at h
    cases h

theorem read_eq_ok (h : d.read path = .ok content) :
    ∃ name, Path.target path = .file name ∧ d.files.lookup name = some content := by
  rw [read] at h
  cases hTarget : Path.target path with
  | file name =>
    rw [hTarget] at h
    cases hFound : d.files.lookup name with
    | some found =>
      simp only [hFound] at h
      cases h
      exact ⟨name, rfl, hFound⟩
    | none =>
      simp only [hFound] at h
      cases h
  | beneath name slashesOnly | directory | outside =>
    rw [hTarget] at h
    cases h

theorem read_file {name : String} (hTarget : Path.target path = .file name)
    (hFound : d.files.lookup name = some content) : d.read path = .ok content := by
  rw [read, hTarget]
  simp only [hFound]

end Directory

open Directory

theorem ofDirectory_read (path : String) (d : Directory) :
    Files.ofDirectory.read path d = ((d.read path).mapError OpenFailure.message, d) := rfl

theorem ofDirectory_write (path : String) (content : List UInt8) (d : Directory) :
    Files.ofDirectory.write path content d =
      ((d.write path content).1.map OpenFailure.message, (d.write path content).2) := rfl

theorem lawful_ofDirectory : Files.ofDirectory.Lawful where
  read_state _ _ := rfl
  read_written path content d d' hWrite := by
    rw [ofDirectory_write] at hWrite
    obtain ⟨hNone, rfl⟩ := Prod.mk.inj hWrite
    obtain ⟨name, hTarget, hAfter⟩ := write_eq_none (Option.map_eq_none_iff.mp hNone)
    have hFound : (insertFile name content d.files).lookup name = some content := by
      rw [lookup_insertFile, if_pos rfl]
    rw [ofDirectory_read, hAfter, read_file hTarget hFound]
    rfl
  read_other path content d d' other before hWrite hRead := by
    rw [ofDirectory_write] at hWrite
    obtain ⟨hNone, rfl⟩ := Prod.mk.inj hWrite
    obtain ⟨name, -, hAfter⟩ := write_eq_none (Option.map_eq_none_iff.mp hNone)
    rw [ofDirectory_read] at hRead
    cases hBefore : d.read other with
    | error e =>
      rw [hBefore] at hRead
      cases hRead
    | ok found =>
      rw [hBefore] at hRead
      cases hRead
      obtain ⟨otherName, hTarget, hFound⟩ := read_eq_ok hBefore
      have hLookup := lookup_insertFile name content d.files otherName
      rw [ofDirectory_read, hAfter]
      split at hLookup
      · right
        rw [read_file hTarget hLookup]
        rfl
      · left
        rw [read_file hTarget (hLookup.trans hFound)]
        rfl

end BlockMachine.Cli
