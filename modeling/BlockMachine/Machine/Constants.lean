import BlockMachine.Value.Basic

/-!
# Constants
Named values that a program can read. Some are built in; a host defines others, each once and
none under a built-in name.
-/

namespace BlockMachine
set_option autoImplicit false

structure AlreadyDefined where
  name : String
  deriving DecidableEq

def AlreadyDefined.message (e : AlreadyDefined) : String :=
  s!"constant '{e.name}' already defined"

structure Constants where
  defined : List (String × Value) := []
  deriving DecidableEq

namespace Constants

def isWord (name word : String) : Bool := name.toList.map Char.toLower == word.toList

def builtin? (name : String) : Option Value :=
  if name = "PHP_INT_MAX" then some (.integer Int64.maxValue)
  else if name = "PHP_INT_MIN" then some (.integer Int64.minValue)
  else if name = "PHP_INT_SIZE" then some (.integer 8)
  else if name = "PHP_EOL" then some (.string [10])
  else if isWord name "true" then some (.boolean true)
  else if isWord name "false" then some (.boolean false)
  else if isWord name "null" then some .unknown
  else none

def lookup (c : Constants) (name : String) : Option Value :=
  c.defined.lookup name <|> builtin? name

def define (c : Constants) (name : String) (value : Value) : Except AlreadyDefined Constants :=
  if (builtin? name).isSome || (c.defined.lookup name).isSome then .error ⟨name⟩
  else .ok ⟨c.defined ++ [(name, value)]⟩

end Constants

end BlockMachine
