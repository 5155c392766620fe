import BlockMachine.Cli.Command

/-!
# Program entry
The command on the file system and the standard streams.
-/

namespace BlockMachine.Cli
set_option autoImplicit false

def osReason : IO.Error → String
  | .noFileOrDirectory _ _ _ => OpenFailure.missing.message
  | .permissionDenied _ code _ => s!"Permission denied (os error {code})"
  | .inappropriateType _ code details => s!"{details} (os error {code})"
  | e => toString e

def systemFiles : Files IO where
  read path := do
    try return .ok (← IO.FS.readBinFile path).toList
    catch e => return .error (osReason e)
  write path content := do
    try
      IO.FS.writeBinFile path ⟨content.toArray⟩
      return none
    catch e => return some (osReason e)

/-- More transitions than any machine makes. -/
def unlimited : Nat := 0x4000000000000000

end BlockMachine.Cli

open BlockMachine.Cli in
def main (args : List String) : IO UInt32 := do
  match ← invoke systemFiles unlimited args .plain with
  | some reply =>
    (← IO.getStdout).write ⟨reply.stdout.toArray⟩
    (← IO.getStderr).write ⟨reply.stderr.toArray⟩
    return reply.code.toUInt32
  | none => return 1
