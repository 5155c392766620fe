/-!
# Reading bytes
A reader takes a value off the front of a byte sequence and leaves the rest, or says why the bytes
are malformed.
-/

namespace BlockMachine
set_option autoImplicit false

inductive Malformed where
  | endOfInput
  | badVarint
  | badBool
  | badOption
  | unknownTag
  deriving DecidableEq

def Malformed.message : Malformed → String
  | .endOfInput => "Hit the end of buffer, expected more data"
  | .badVarint => "Found a varint that didn't terminate. Is the usize too big for this platform?"
  | .badBool => "Found a bool that wasn't 0 or 1"
  | .badOption => "Found an Option discriminant that wasn't 0 or 1"
  | .unknownTag => "Serde Deserialization Error"

abbrev Reader := StateT (List UInt8) (Except Malformed)

namespace Reader

def byte : Reader UInt8
  | [] => .error .endOfInput
  | b :: bs => .ok (b, bs)

def many {α : Type} (r : Reader α) : Nat → Reader (List α)
  | 0 => return []
  | n + 1 => do
    let a ← r
    let as ← many r n
    return a :: as

end Reader

end BlockMachine
