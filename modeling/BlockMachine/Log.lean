/-!
# Log entries
What lowering and running report about themselves: a level, a message, and named values.
-/

namespace BlockMachine
set_option autoImplicit false

inductive LogLevel where
  | trace
  | debug
  | warn
  deriving DecidableEq

def LogLevel.name : LogLevel → String
  | .trace => "TRACE"
  | .debug => "DEBUG"
  | .warn => "WARN"

structure LogEntry where
  level : LogLevel
  message : String
  fields : List (String × String)
  deriving DecidableEq

def LogEntry.words (e : LogEntry) : List String :=
  e.level.name :: e.message :: e.fields.map fun f => f.1 ++ "=" ++ f.2

end BlockMachine
