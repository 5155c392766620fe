import BlockMachine.Text.Decimal
import BlockMachine.Text.Utf8

/-!
# Values
What a slot holds. Every value has a truth value and a text; text is bytes and need not be UTF-8.
-/

namespace BlockMachine
set_option autoImplicit false

inductive Value where
  /-- Never written. -/
  | unknown
  | string (bytes : List UInt8)
  | integer (n : Int64)
  | boolean (b : Bool)
  deriving DecidableEq, Inhabited

inductive ValueType where
  | unknown
  | string
  | integer
  | boolean
  deriving DecidableEq

def ValueType.name : ValueType → String
  | .unknown => "unknown"
  | .string => "string"
  | .integer => "int"
  | .boolean => "bool"

namespace Value

def ofString (s : String) : Value := .string (Utf8.encode s)

def type : Value → ValueType
  | .unknown => .unknown
  | .string _ => .string
  | .integer _ => .integer
  | .boolean _ => .boolean

def toBool : Value → Bool
  | .unknown => false
  | .string bytes => !(bytes == [] || bytes == [48])
  | .integer n => n != 0
  | .boolean b => b

def toBytes : Value → List UInt8
  | .unknown => []
  | .string bytes => bytes
  | .integer n => Utf8.encode (Decimal.text n)
  | .boolean true => [49]
  | .boolean false => []

def display (v : Value) : String := Utf8.decode v.toBytes

end Value

end BlockMachine
