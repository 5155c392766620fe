import BlockMachine.Cli.Demo
import BlockMachine.Cli.Directory
import BlockMachine.Cli.Options
import BlockMachine.Code.Listing
import BlockMachine.Machine.Capacity
import BlockMachine.Pipeline

/-!
# The command
What one invocation does: it takes a program from an image file, or lowers the demonstration
graph, and then lists it, writes it to a file, or runs it. Files are reached through two functions,
so the command runs on a directory as data and on a file system alike. What is logged on the way
goes to standard error, ahead of what the command says itself.
-/

namespace BlockMachine.Cli
set_option autoImplicit false

structure Files (m : Type → Type) where
  read : String → m (Except String (List UInt8))
  write : String → List UInt8 → m (Option String)

def Files.ofDirectory : Files (StateM Directory) where
  read path := do return ((← get).read path).mapError OpenFailure.message
  write path content := modifyGet fun d =>
    let (failure, d) := d.write path content
    (failure.map OpenFailure.message, d)

/-- How the process speaks for itself: nothing is known of the form that its words have. -/
structure Console where
  log : LogEntry → List UInt8 := fun _ => []
  lastWords : List UInt8 := []

namespace Console

def logAll (console : Console) (entries : List LogEntry) : List UInt8 := entries.flatMap console.log

def plain : Console where
  log e := if e.level = .warn then Utf8.encode (" " ++ " ".intercalate e.words ++ "\n") else []
  lastWords := Utf8.encode "capacity overflow\n"

end Console

structure Reply where
  code : UInt8 := 0
  stdout : List UInt8 := []
  stderr : List UInt8 := []
  deriving DecidableEq

def usage : String := String.join ([
  "cfgvm - CFG bytecode compiler and block VM",
  "",
  "Usage:",
  "  cfgvm                        Compile and run the built-in demo loop",
  "  cfgvm <file.cfgbc>           Run a compiled image",
  "  cfgvm --bc [file.cfgbc]      Print the disassembly before running",
  "  cfgvm --emit <file.cfgbc>    Write the program as an image instead of running",
  "  cfgvm --max-steps <n>        Stop after n opcodes",
  "  cfgvm --help, -h             Show this help",
  "",
  "Logging is controlled with RUST_LOG (e.g. RUST_LOG=cfgvm=debug)."].map (· ++ "\n"))

def imageExtension : String := "cfgbc"

def wrongExtension (path : String) : String :=
  s!"Error: expected a .{imageExtension} file, got {path}\n"

variable {m : Type → Type} [Monad m]

def loadImage (files : Files m) (path : String) : m (Except String Program) := do
  if !Path.hasExtension path imageExtension then return .error (wrongExtension path)
  match ← files.read path with
  | .error reason => return .error s!"Failed to read '{path}': {reason}\n"
  | .ok content =>
    match Program.ofImage content with
    | .error malformed => return .error s!"Invalid image '{path}': {malformed.message}\n"
    | .ok p =>
      match p.verify with
      | .error defect => return .error s!"Invalid image '{path}': {defect.message}\n"
      | .ok () => return .ok p

def lowerDemo : Except String Program × List LogEntry :=
  let (result, events) := demo.lowering demo.roots
  (result.mapError fun refusal => s!"Compile error: {refusal.message}\n", events.map (·.entry))

def loadProgram (files : Files m) (o : Options) : m (Except String Program × List LogEntry) :=
  match o.image with
  | some path => return (← loadImage files path, [])
  | none => return lowerDemo

def emitImage (files : Files m) (p : Program) (path : String) : m Reply := do
  if !Path.hasExtension path imageExtension then
    return { code := 1, stderr := Utf8.encode (wrongExtension path) }
  let image := p.toImage
  match ← files.write path image with
  | some reason =>
    return { code := 1, stderr := Utf8.encode s!"Failed to write '{path}': {reason}\n" }
  | none => return { stderr := Utf8.encode s!"wrote {image.length} bytes to {path}\n" }

def runProgram (console : Console) (fuel : Nat) (p : Program) (maxSteps : Option Nat) :
    Option Reply :=
  (Machine.attempt fuel p { maxSteps } {}).map fun
    | .returned report =>
      let logged := console.logAll (report.events.map (·.entry))
      match report.result with
      | .ok () => { stdout := report.host.sink.kept, stderr := logged }
      | .error f => {
        code := 1
        stdout := report.host.sink.kept
        stderr := logged ++ Utf8.encode (f.message ++ "\n") }
    | .overflowed s => {
      code := 101
      stdout := s.host.sink.kept
      stderr := console.logAll (s.trail.reverse.map (·.entry)) ++ console.lastWords }

def perform (files : Files m) (fuel : Nat) (o : Options) (console : Console) :
    m (Option Reply) := do
  let (loaded, entries) ← loadProgram files o
  let logged := console.logAll entries
  match loaded with
  | .error text => return some { code := 1, stderr := logged ++ Utf8.encode text }
  | .ok p =>
    let listing := if o.listing then Utf8.encode p.listing else []
    let reply ← match o.emit with
      | some path => some <$> emitImage files p path
      | none => pure (runProgram console fuel p o.maxSteps)
    return reply.map fun r => { r with
      stdout := listing ++ r.stdout
      stderr := logged ++ r.stderr }

/-- One invocation with the arguments after the program's name. There is no reply if a run does not
end within the fuel. -/
def invoke (files : Files m) (fuel : Nat) (args : List String) (console : Console := {}) :
    m (Option Reply) :=
  if args.any fun arg => arg == "--help" || arg == "-h" then
    return some { stdout := Utf8.encode usage }
  else
    match Options.parse {} args with
    | .error e => return some {
        code := 1
        stdout := Utf8.encode usage
        stderr := Utf8.encode s!"Error: {e.message}\n" }
    | .ok o => perform files fuel o console

end BlockMachine.Cli
