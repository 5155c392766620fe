/-!
# White space
Two classes: the bytes that separate numbers, and the characters with the property White_Space.
The vertical tab and the line separators outside ASCII belong to the second class only.
-/

namespace BlockMachine
set_option autoImplicit false

def isSpaceByte (b : UInt8) : Bool :=
  b == 32 || b == 9 || b == 10 || b == 12 || b == 13

def Blank.ranges : List (Nat × Nat) := [
    (0x9, 0xd), (0x20, 0x20), (0x85, 0x85), (0xa0, 0xa0), (0x1680, 0x1680), (0x2000, 0x200a),
    (0x2028, 0x2029), (0x202f, 0x202f), (0x205f, 0x205f), (0x3000, 0x3000)]

def isBlank (c : Char) : Bool :=
  Blank.ranges.any fun r => r.1 ≤ c.toNat && c.toNat ≤ r.2

end BlockMachine
