/-!
# Command line options
-/

namespace BlockMachine.Cli
set_option autoImplicit false

structure Options where
  listing : Bool := false
  emit : Option String := none
  maxSteps : Option Nat := none
  image : Option String := none
  deriving DecidableEq

inductive UsageError where
  | missingPath
  | missingNumber
  | notANumber (text : String)
  | unknownOption (text : String)
  | unexpectedArgument (text : String)
  deriving DecidableEq

def UsageError.message : UsageError → String
  | .missingPath => "--emit needs an output path"
  | .missingNumber => "--max-steps needs a number"
  | .notANumber text => s!"--max-steps expects a number, got '{text}'"
  | .unknownOption text => s!"unknown option '{text}'"
  | .unexpectedArgument text => s!"unexpected argument '{text}'"

def number? (s : String) : Option Nat :=
  let digits := match s.toList with
    | '+' :: cs => cs
    | cs => cs
  let n := Nat.ofDigitChars 10 digits 0
  if !digits.isEmpty && digits.all Char.isDigit && n < 0x10000000000000000 then some n else none

namespace Options

/-- Reads arguments from left to right on top of the given options. Of a repeated option the last
one counts. -/
def parse (o : Options) : List String → Except UsageError Options
  | [] => .ok o
  | arg :: args =>
    if arg = "--bc" ∨ arg = "--bytecode" then parse { o with listing := true } args
    else if arg = "--emit" then
      match args with
      | [] => .error .missingPath
      | path :: args => parse { o with emit := some path } args
    else if arg = "--max-steps" then
      match args with
      | [] => .error .missingNumber
      | text :: args =>
        match number? text with
        | some n => parse { o with maxSteps := some n } args
        | none => .error (.notANumber text)
    else if arg.toList.head? = some '-' then .error (.unknownOption arg)
    else
      match o.image with
      | some _ => .error (.unexpectedArgument arg)
      | none => parse { o with image := some arg } args

end Options

end BlockMachine.Cli
