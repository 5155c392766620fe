import BlockMachine.Cli.Command

/-!
# What the command relies on
The command reaches files through two functions. What they are expected to do is said here, whatever
the files are kept in, next to the arguments with which an image is written and run.
-/

namespace BlockMachine.Cli
set_option autoImplicit false

structure Files.Lawful {σ : Type} (files : Files (StateM σ)) : Prop where
  read_state : ∀ path s, (files.read path s).2 = s
  read_written : ∀ path content s s', files.write path content s = (none, s') →
    (files.read path s').1 = .ok content
  /-- Any other path leads to a file that is as it was, or to the file that was written. -/
  read_other : ∀ path content s s' other before, files.write path content s = (none, s') →
    (files.read other s).1 = .ok before →
    (files.read other s').1 = .ok before ∨ (files.read other s').1 = .ok content

/-- A path that is taken for an image file and not for an option. -/
structure ImagePath (path : String) : Prop where
  extension : Path.hasExtension path imageExtension = true
  plain : path.toList.head? ≠ some '-'

def emitArgs (target source : String) : List String := ["--emit", target, source]

def runArgs (listing : Bool) (maxSteps path : String) : List String :=
  (if listing then ["--bc"] else []) ++ ["--max-steps", maxSteps, path]

def emitted (p : Program) (path : String) : Reply where
  code := 0
  stdout := []
  stderr := Utf8.encode s!"wrote {p.toImage.length} bytes to {path}\n"

def listed (listing : Bool) (p : Program) : List UInt8 :=
  if listing then Utf8.encode p.listing else []

def Reply.withListing (listing : Bool) (p : Program) (r : Reply) : Reply :=
  { r with stdout := listed listing p ++ r.stdout }

/-- A program was run by itself under a step limit, and the reply tells how that ended: the output
behind the listing, and ahead of a failure all that was logged. -/
inductive Reply.Shows (console : Console) (p : Program) (n : Nat) (listing : Bool) :
    Reply → Prop where
  | succeeded {fuel : Nat} {report : Machine.Report} :
      Machine.run fuel p { maxSteps := some n } {} = some report → report.result = .ok () →
      Shows console p n listing {
        code := 0
        stdout := listed listing p ++ report.host.sink.kept
        stderr := console.logAll (report.events.map (·.entry)) }
  | failed {fuel : Nat} {report : Machine.Report} {f : Failure} :
      Machine.run fuel p { maxSteps := some n } {} = some report → report.result = .error f →
      Shows console p n listing {
        code := 1
        stdout := listed listing p ++ report.host.sink.kept
        stderr := console.logAll (report.events.map (·.entry)) ++ Utf8.encode (f.message ++ "\n") }
  | overflowed {fuel : Nat} {s : Machine.State} :
      Machine.attempt fuel p { maxSteps := some n } {} = some (.overflowed s) →
      Shows console p n listing {
        code := 101
        stdout := listed listing p ++ s.host.sink.kept
        stderr := console.logAll (s.trail.reverse.map (·.entry)) ++ console.lastWords }

end BlockMachine.Cli
