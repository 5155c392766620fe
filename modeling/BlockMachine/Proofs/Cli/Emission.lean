import BlockMachine.Proofs.Cli.Directory
import BlockMachine.Proofs.Image.Normalising
import BlockMachine.Proofs.Machine.Capacity

/-!
# Emitted images
What an image file holds can be written to another file and run from there. Nothing that is seen of
a run tells one file from the other, and writing once more gives the same bytes. Content that is no
image of a verified program is neither run nor written.
-/

namespace BlockMachine.Cli
set_option autoImplicit false

variable {path text : String} {listing : Bool}

namespace Options

theorem parse_image {o : Options} (hPlain : path.toList.head? ≠ some '-')
    (hNone : o.image = none) : parse o [path] = .ok { o with image := some path } := by
  have hNot (flag : String) (hFlag : flag.toList.head? = some '-') : path ≠ flag := by
    rintro rfl
    exact hPlain hFlag
  have hListing : ¬ (path = "--bc" ∨ path = "--bytecode") :=
    not_or.mpr ⟨hNot "--bc" rfl, hNot "--bytecode" rfl⟩
  rw [parse, if_neg hListing, if_neg (hNot "--emit" rfl), if_neg (hNot "--max-steps" rfl),
    if_neg hPlain, hNone]
  rfl

theorem parse_emitArgs {target : String} (hPlain : path.toList.head? ≠ some '-') :
    parse {} (emitArgs target path) = .ok { emit := some target, image := some path } := by
  rw [emitArgs, parse, if_neg (by decide), if_pos rfl]
  exact parse_image hPlain rfl

theorem parse_runArgs (hPlain : path.toList.head? ≠ some '-') :
    parse {} (runArgs listing text path) =
      match number? text with
      | some n => .ok { listing, maxSteps := some n, image := some path }
      | none => .error (.notANumber text) := by
  have hLimit (o : Options) (hNone : o.image = none) :
      parse o ["--max-steps", text, path] =
        match number? text with
        | some n => .ok { o with maxSteps := some n, image := some path }
        | none => .error (.notANumber text) := by
    rw [parse, if_neg (by decide), if_neg (by decide), if_pos rfl]
    cases number? text with
    | some n => exact parse_image hPlain hNone
    | none => rfl
  cases listing with
  | false => exact hLimit {} rfl
  | true =>
    have hFlag : parse {} (runArgs true text path) =
        parse { listing := true } ["--max-steps", text, path] := by
      rw [runArgs, if_pos rfl, List.singleton_append, parse, if_pos (.inl rfl)]
    exact hFlag.trans (hLimit { listing := true } rfl)

end Options

section Files

variable {σ : Type} {files : Files (StateM σ)} {s s' : σ} {f g : String} {content : List UInt8}
  {p : Program} {fuel n : Nat} {console : Console}

theorem bind_of_eq {α β : Type} {x : StateM σ α} {k : α → StateM σ β} {a : α}
    (h : x s = (a, s')) : (x >>= k) s = k a s' := by
  change (match x s with | (a, s') => k a s') = k a s'
  rw [h]

theorem Files.Lawful.read_eq (hFiles : files.Lawful) {r : Except String (List UInt8)}
    (h : (files.read f s).1 = r) : files.read f s = (r, s) :=
  Prod.ext h (hFiles.read_state f s)

/-- The content is an image of the program, which can be verified. -/
structure Holds (content : List UInt8) (p : Program) : Prop where
  image : Program.ofImage content = .ok p
  verified : p.verify = .ok ()

theorem Holds.toImage (h : Holds content p) : Holds p.toImage p :=
  ⟨Program.ofImage_again h.image, h.verified⟩

section Load

variable (hf : ImagePath f)
include hf

theorem loadImage_spec (hRead : files.read f s = (.ok content, s)) :
    (∃ p, Holds content p ∧ loadImage files f s = (.ok p, s)) ∨
      (∀ p, ¬ Holds content p) ∧ ∃ reason, loadImage files f s = (.error reason, s) := by
  rw [loadImage, hf.extension]
  simp only [Bool.not_true, Bool.false_eq_true, if_false]
  rw [bind_of_eq hRead]
  dsimp only
  cases hImage : Program.ofImage content with
  | error malformed =>
    right
    refine ⟨fun p h => ?_, _, rfl⟩
    cases hImage.symm.trans h.image
  | ok p =>
    dsimp only
    cases hVerify : p.verify with
    | error defect =>
      right
      refine ⟨fun q h => ?_, _, rfl⟩
      cases hImage.symm.trans h.image
      cases hVerify.symm.trans h.verified
    | ok u => exact .inl ⟨p, ⟨hImage, hVerify⟩, rfl⟩

theorem loadImage_of_holds (hRead : files.read f s = (.ok content, s)) (h : Holds content p) :
    loadImage files f s = (.ok p, s) := by
  obtain ⟨q, hHolds, hLoad⟩ | ⟨hNone, -⟩ := loadImage_spec hf hRead
  · cases h.image.symm.trans hHolds.image
    exact hLoad
  · exact absurd h (hNone p)

end Load

section Perform

variable {o : Options} (hImage : o.image = some f)
include hImage

theorem perform_invalid {reason : String} (hLoad : loadImage files f s = (.error reason, s)) :
    perform files fuel o console s = (some { code := 1, stderr := Utf8.encode reason }, s) := by
  rw [perform, loadProgram, hImage]
  dsimp only
  rw [bind_assoc, bind_of_eq hLoad]
  rfl

theorem perform_run (hEmit : o.emit = none) (hLoad : loadImage files f s = (.ok p, s)) :
    perform files fuel o console s =
      ((runProgram console fuel p o.maxSteps).map (Reply.withListing o.listing p), s) := by
  rw [perform, loadProgram, hImage]
  dsimp only
  rw [bind_assoc, bind_of_eq hLoad, hEmit]
  rfl

theorem perform_emit (hEmit : o.emit = some g) (hListing : o.listing = false) (hg : ImagePath g)
    (hLoad : loadImage files f s = (.ok p, s))
    (hWrite : files.write g p.toImage s = (none, s')) :
    perform files fuel o console s = (some (emitted p g), s') := by
  have hReply : emitImage files p g s = (emitted p g, s') := by
    rw [emitImage, hg.extension]
    simp only [Bool.not_true, Bool.false_eq_true, if_false]
    exact bind_of_eq hWrite
  have hSome : (some <$> emitImage files p g) s = (some (emitted p g), s') := by
    rw [map_eq_pure_bind]
    exact bind_of_eq hReply
  rw [perform, loadProgram, hImage]
  dsimp only
  rw [bind_assoc, bind_of_eq hLoad, hEmit, hListing]
  exact bind_of_eq hSome

end Perform

section Invoke

def runRefusal? (text : String) : Option Reply :=
  if text == "--help" || text == "-h" then some { stdout := Utf8.encode usage }
  else
    match number? text with
    | some _ => none
    | none => some {
        code := 1
        stdout := Utf8.encode usage
        stderr := Utf8.encode s!"Error: {(UsageError.notANumber text).message}\n" }

def runReply (console : Console) (fuel : Nat) (listing : Bool) (text : String) (p : Program) :
    Option Reply :=
  match runRefusal? text with
  | some r => some r
  | none => (runProgram console fuel p (number? text)).map (Reply.withListing listing p)

theorem runRefusal?_of_number {n : Nat} (h : number? text = some n) : runRefusal? text = none := by
  have hHelp : (text == "--help" || text == "-h") = false := by
    rw [Bool.or_eq_false_iff, beq_eq_false_iff_ne, beq_eq_false_iff_ne]
    constructor <;> rintro rfl <;> cases h
  rw [runRefusal?, hHelp, h]
  rfl

theorem helps_of_plain (hf : ImagePath f) : (f == "--help" || f == "-h") = false := by
  rw [Bool.or_eq_false_iff, beq_eq_false_iff_ne, beq_eq_false_iff_ne]
  constructor <;> rintro rfl <;> exact hf.plain rfl

theorem invoke_runArgs (hf : ImagePath f) :
    invoke files fuel (runArgs listing text f) console =
      match runRefusal? text with
      | some r => pure (some r)
      | none =>
        perform files fuel { listing, maxSteps := number? text, image := some f } console := by
  have hAny : (runArgs listing text f).any (fun arg => arg == "--help" || arg == "-h") =
      (text == "--help" || text == "-h") := by
    cases listing <;> simp [runArgs, helps_of_plain hf]
  rw [invoke, hAny, Options.parse_runArgs hf.plain, runRefusal?]
  cases text == "--help" || text == "-h" with
  | true => rfl
  | false => cases number? text <;> rfl

theorem invoke_run (hf : ImagePath f) (hLoad : loadImage files f s = (.ok p, s)) :
    invoke files fuel (runArgs listing text f) console s =
      (runReply console fuel listing text p, s) := by
  rw [invoke_runArgs hf, runReply]
  cases runRefusal? text with
  | some r => rfl
  | none => exact perform_run rfl rfl hLoad

theorem invoke_emitArgs (hf : ImagePath f) (hg : ImagePath g) :
    invoke files fuel (emitArgs g f) console =
      perform files fuel { emit := some g, image := some f } console := by
  have hAny : (emitArgs g f).any (fun arg => arg == "--help" || arg == "-h") = false := by
    simp [emitArgs, helps_of_plain hf, helps_of_plain hg]
  rw [invoke, hAny, Options.parse_emitArgs hf.plain]
  rfl

theorem invoke_emit (hf : ImagePath f) (hg : ImagePath g)
    (hLoad : loadImage files f s = (.ok p, s)) (hWrite : files.write g p.toImage s = (none, s')) :
    invoke files fuel (emitArgs g f) console s = (some (emitted p g), s') := by
  rw [invoke_emitArgs hf hg]
  exact perform_emit rfl rfl rfl hg hLoad hWrite

theorem shows_of_runProgram {r : Reply} (h : runProgram console fuel p (some n) = some r) :
    (Reply.withListing listing p r).Shows console p n listing := by
  obtain ⟨ending, hAttempt, rfl⟩ := Option.map_eq_some_iff.mp h
  cases ending with
  | overflowed lost => exact .overflowed hAttempt
  | returned report =>
    have hRun := Machine.run_of_attempt hAttempt
    dsimp only
    cases hResult : report.result with
    | ok u => exact .succeeded hRun hResult
    | error failure => exact .failed hRun hResult

theorem shows_of_runReply {r : Reply} (hNumber : number? text = some n)
    (h : runReply console fuel listing text p = some r) : r.Shows console p n listing := by
  rw [runReply, runRefusal?_of_number hNumber, hNumber] at h
  obtain ⟨r, hProgram, rfl⟩ := Option.map_eq_some_iff.mp h
  exact shows_of_runProgram hProgram

theorem exists_runReply (hNumber : number? text = some n) :
    ∃ fuel r, runReply console fuel listing text p = some r := by
  obtain ⟨fuel, report, hRun, -⟩ := (Machine.run_terminates p { maxSteps := some n } {}).1 n rfl
  obtain ⟨fuel, ending, hAttempt⟩ := Machine.exists_attempt ⟨fuel, report, hRun⟩
  refine ⟨fuel, ?_⟩
  rw [runReply, runRefusal?_of_number hNumber, hNumber, runProgram, hAttempt]
  exact ⟨_, rfl⟩

end Invoke

theorem Files.Lawful.holds_other (hFiles : files.Lawful) (hRead : (files.read f s).1 = .ok content)
    (h : Holds content p) (hWrite : files.write g p.toImage s = (none, s')) :
    ∃ content', (files.read f s').1 = .ok content' ∧ Holds content' p := by
  rcases hFiles.read_other g p.toImage s s' f content hWrite hRead with hSame | hWritten
  · exact ⟨content, hSame, h⟩
  · exact ⟨p.toImage, hWritten, h.toImage⟩

/-- Emitting and loading is transparent. When a readable file holds an image of a verified program,
emitting it to another file succeeds whatever the fuel, even with none, so nothing is run. From then
on every command that runs the one file runs the other to the same reply, and that is to show how
the program ends; and emitting from the other writes the same bytes again. When it holds no such
image, each command fails with no output and writes nothing. -/
theorem emit_transparent (console : Console) (hFiles : files.Lawful) (hf : ImagePath f)
    (hg : ImagePath g) (hRead : (files.read f s).1 = .ok content) :
    (∀ p s', Program.ofImage content = .ok p → p.verify = .ok () →
      files.write g p.toImage s = (none, s') →
      (∀ fuel, invoke files fuel (emitArgs g f) console s = (some (emitted p g), s')) ∧
      (∀ fuel listing text,
        invoke files fuel (runArgs listing text g) console s' =
          ((invoke files fuel (runArgs listing text f) console s).1, s') ∧
        invoke files fuel (runArgs listing text f) console s' =
          ((invoke files fuel (runArgs listing text f) console s).1, s')) ∧
      (∀ listing text n, number? text = some n →
        (∃ fuel r, (invoke files fuel (runArgs listing text g) console s').1 = some r) ∧
        ∀ fuel r, (invoke files fuel (runArgs listing text g) console s').1 = some r →
          r.Shows console p n listing) ∧
      (files.read g s').1 = .ok p.toImage ∧
      ∀ fuel h s'', ImagePath h → files.write h p.toImage s' = (none, s'') →
        invoke files fuel (emitArgs h g) console s' = (some (emitted p h), s'') ∧
          (files.read h s'').1 = .ok p.toImage) ∧
    ((∀ p, Program.ofImage content = .ok p → p.verify ≠ .ok ()) →
      ∀ fuel args, args = emitArgs g f ∨
          (∃ listing text n, number? text = some n ∧ args = runArgs listing text f) →
        ∃ stderr,
          invoke files fuel args console s = (some { code := 1, stdout := [], stderr }, s)) := by
  constructor
  · intro p s' hImage hVerify hWrite
    have hHolds : Holds content p := ⟨hImage, hVerify⟩
    have hLoad := loadImage_of_holds hf (hFiles.read_eq hRead) hHolds
    have hWritten := hFiles.read_written g p.toImage s s' hWrite
    have hLoadOther := loadImage_of_holds hg (hFiles.read_eq hWritten) hHolds.toImage
    obtain ⟨content', hRead', hHolds'⟩ := hFiles.holds_other hRead hHolds hWrite
    have hLoadAgain := loadImage_of_holds hf (hFiles.read_eq hRead') hHolds'
    refine ⟨fun fuel => invoke_emit hf hg hLoad hWrite, ?_, ?_, hWritten, ?_⟩
    · intro fuel listing text
      rw [invoke_run hf hLoad, invoke_run hg hLoadOther, invoke_run hf hLoadAgain]
      exact ⟨rfl, rfl⟩
    · intro listing text n hNumber
      constructor
      · obtain ⟨fuel, r, hReply⟩ := exists_runReply hNumber
        exact ⟨fuel, r, by rw [invoke_run hg hLoadOther, hReply]⟩
      · intro fuel r hReply
        rw [invoke_run hg hLoadOther] at hReply
        exact shows_of_runReply hNumber hReply
    · intro fuel h s'' hh hWrite'
      exact ⟨invoke_emit hg hh hLoadOther hWrite', hFiles.read_written h p.toImage s' s'' hWrite'⟩
  · intro hNone fuel args hArgs
    obtain ⟨p, h, -⟩ | ⟨-, reason, hLoad⟩ := loadImage_spec hf (hFiles.read_eq hRead)
    · exact absurd h.verified (hNone p h.image)
    rcases hArgs with rfl | ⟨listing, text, n, hNumber, rfl⟩
    · rw [invoke_emitArgs hf hg]
      exact ⟨_, perform_invalid rfl hLoad⟩
    · rw [invoke_runArgs hf, runRefusal?_of_number hNumber]
      exact ⟨_, perform_invalid rfl hLoad⟩

end Files

/-- Adds three to a text that begins with a two, and writes the sum. -/
def reckoning : Program where
  blocks := [{
    label := ⟨0⟩, origin := ⟨0⟩, instrs := [.binary (.arithmetic .plus) 2 0 1, .echo 2]
    lines := [none, some 4]
    constants := [⟨⟨0⟩, 0, .ofString "2x"⟩, ⟨⟨1⟩, 1, .integer 3⟩]
    scopeSize := 3 }]
  entry := ⟨0⟩
  slotCount := 3

/-- Its image, but the number of blocks takes a byte too many, and there is a byte to spare. -/
def reckoningImage : List UInt8 := 0x81 :: 0x00 :: reckoning.toImage.tail ++ [255]

/-- The image, and a file that is none. -/
def drawer : Directory where
  files := [("broken.cfgbc", [1]), ("given.cfgbc", reckoningImage)]

def reckoned (listing : List UInt8) : Reply where
  code := 0
  stdout := listing ++ [53]
  stderr := Utf8.encode " WARN leading-numeric string used as integer value=2x\n"

theorem emit_transparent_drawer :
    ∃ d, invoke Files.ofDirectory 0 (emitArgs "copy.cfgbc" "given.cfgbc") .plain drawer =
        (some (emitted reckoning "copy.cfgbc"), d) ∧
      invoke Files.ofDirectory 9 (runArgs false "5" "copy.cfgbc") .plain d =
        (some (reckoned []), d) ∧
      invoke Files.ofDirectory 9 (runArgs true "5" "copy.cfgbc") .plain d =
        (some (reckoned (Utf8.encode reckoning.listing)), d) ∧
      (reckoned []).Shows .plain reckoning 5 false ∧
      ∃ stderr, invoke Files.ofDirectory 9 (runArgs true "5" "broken.cfgbc") .plain drawer =
        (some { code := 1, stdout := [], stderr }, drawer) := by
  have hGiven : ImagePath "given.cfgbc" := ⟨by decide, by decide⟩
  have hCopy : ImagePath "copy.cfgbc" := ⟨by decide, by decide⟩
  have hBroken : ImagePath "broken.cfgbc" := ⟨by decide, by decide⟩
  have hImage : Program.ofImage reckoningImage = .ok reckoning := by decide +kernel
  have hVerify : reckoning.verify = .ok () := by decide +kernel
  have hNone : ∀ p, Program.ofImage [1] = .ok p → p.verify ≠ .ok () := by
    intro p hp
    cases hp
  have hNumber : number? "5" = some 5 := by decide +kernel
  have hRead : (Files.ofDirectory.read "given.cfgbc" drawer).1 = .ok reckoningImage := rfl
  have hReadBroken : (Files.ofDirectory.read "broken.cfgbc" drawer).1 = .ok [1] := rfl
  have hWrite : Files.ofDirectory.write "copy.cfgbc" reckoning.toImage drawer =
      (none, ⟨[("broken.cfgbc", [1]), ("copy.cfgbc", reckoning.toImage),
        ("given.cfgbc", reckoningImage)]⟩) := rfl
  have hProgram : runProgram .plain 9 reckoning (some 5) = some (reckoned []) := by decide +kernel
  have hLoad := loadImage_of_holds hGiven (lawful_ofDirectory.read_eq hRead) ⟨hImage, hVerify⟩
  have hReply (listing : Bool) :
      (invoke Files.ofDirectory 9 (runArgs listing "5" "given.cfgbc") .plain drawer).1 =
        some (reckoned (listed listing reckoning)) := by
    rw [invoke_run hGiven hLoad, runReply, runRefusal?_of_number hNumber, hNumber, hProgram]
    rfl
  obtain ⟨hEmit, hRun, hShows, -⟩ :=
    (emit_transparent .plain lawful_ofDirectory hGiven hCopy hRead).1 _ _ hImage hVerify hWrite
  have hFail := (emit_transparent .plain lawful_ofDirectory hBroken hCopy hReadBroken).2 hNone
  have hCopied (listing : Bool) := (hRun 9 listing "5").1.trans (congrArg (·, _) (hReply listing))
  have hListed : listed true reckoning = Utf8.encode reckoning.listing := if_pos rfl
  refine ⟨_, hEmit 0, hCopied false, hListed ▸ hCopied true, ?_,
    hFail 9 _ (.inr ⟨true, "5", 5, hNumber, rfl⟩)⟩
  exact (hShows false "5" 5 hNumber).2 9 _ (congrArg Prod.fst (hCopied false))

end BlockMachine.Cli
