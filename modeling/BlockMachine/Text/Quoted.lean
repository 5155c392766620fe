import BlockMachine.Text.Unprintable

/-!
# Quoted text
Text between double quotes on one line. Quotes, backslashes and characters without a glyph are
escaped, so a quoted text shows where it ends and which characters it holds.
-/

namespace BlockMachine.Quoted
set_option autoImplicit false

def codePoint (c : Char) : List Char :=
  ['\\', 'u', '\x7b'] ++ Nat.toDigits 16 c.toNat ++ ['\x7d']

def escape (c : Char) : List Char :=
  if c = '"' then ['\\', '"']
  else if c = '\\' then ['\\', '\\']
  else if c = '\t' then ['\\', 't']
  else if c = '\n' then ['\\', 'n']
  else if c = '\r' then ['\\', 'r']
  else if c = '\x00' then ['\\', '0']
  else if isUnprintable c then codePoint c
  else [c]

def quoteChars (cs : List Char) : List Char := '"' :: cs.flatMap escape ++ ['"']

end BlockMachine.Quoted

namespace BlockMachine

def quoted (s : String) : String := String.ofList (Quoted.quoteChars s.toList)

end BlockMachine
