import BlockMachine.Text.Quoted
import BlockMachine.Value.Basic
import BlockMachine.Value.Numeral

/-!
# Integers from values
A text counts as the integer it starts with. Anything but spaces after the digits is dropped with
a warning; a text that starts with no numeral is refused.
-/

namespace BlockMachine
set_option autoImplicit false

inductive NotInteger where
  | nonNumeric (text : String)
  | outOfRange (text : String)
  deriving DecidableEq

def NotInteger.message : NotInteger → String
  | .nonNumeric text => "non-numeric string " ++ quoted text
  | .outOfRange text => "numeric string " ++ quoted text ++ " is out of integer range"

structure Reading where
  value : Int64
  warning : Option String
  deriving DecidableEq

namespace Coercion

def startsNumeric (cs : List Char) : Bool :=
  match cs.dropWhile isBlank with
  | '+' :: c :: _ | '-' :: c :: _ => c.isDigit
  | c :: _ => c.isDigit
  | [] => false

/-- A text that no numeral starts is out of range if it looks like a number, blanks of any kind
before it included. -/
def refuse (bytes : List UInt8) : NotInteger :=
  if bytes.any Decimal.isDigitByte && startsNumeric (Utf8.decodeChars bytes) then
    .outOfRange (Utf8.decode bytes)
  else
    .nonNumeric (Utf8.decode bytes)

def readBytes (bytes : List UInt8) : Except NotInteger Reading :=
  match Numeral.split bytes with
  | some (n, rest) =>
    .ok ⟨n, if rest.all isSpaceByte then none else some (Utf8.decode bytes)⟩
  | none => .error (refuse bytes)

end Coercion

namespace Value

def toInt : Value → Except NotInteger Reading
  | .unknown => .ok ⟨0, none⟩
  | .string bytes => Coercion.readBytes bytes
  | .integer n => .ok ⟨n, none⟩
  | .boolean b => .ok ⟨if b then 1 else 0, none⟩

/-- The integer that the whole of a value spells. -/
def asNumeric : Value → Option Int64
  | .integer n => some n
  | .string bytes =>
    match Numeral.split bytes with
    | some (n, rest) => if rest.all isSpaceByte then some n else none
    | none => none
  | _ => none

end Value

end BlockMachine
