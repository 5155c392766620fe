import BlockMachine.Image.Reader

/-!
# Binary formats
A format writes the values of a type as bytes and reads them back. Formats of compound types are
put together from the formats of their parts, so both directions agree on order and framing.

Numbers have seven bits to a byte, the lowest first, and every byte but the last has its high bit
set. Writing uses as few bytes as the number needs; reading also takes longer forms.
-/

namespace BlockMachine
set_option autoImplicit false

structure Format (α : Type) where
  write : α → List UInt8
  read : Reader α

namespace Format

def writeVarint : Nat → Nat → List UInt8
  | 0, n => [n.toUInt8]
  | more + 1, n =>
    if n < 128 then [n.toUInt8] else (n % 128 + 128).toUInt8 :: writeVarint more (n / 128)

/-- Reads a number of at most the given number of bytes after the first. The last byte allowed
is at most the given top, which keeps the number inside its width. -/
def readVarint (top : Nat) : Nat → Reader Nat
  | 0 => do
    let b ← Reader.byte
    if b.toNat ≤ top then return b.toNat else throw .badVarint
  | more + 1 => do
    let b ← Reader.byte
    if b.toNat < 128 then return b.toNat
    else return b.toNat - 128 + 128 * (← readVarint top more)

def varint (more top : Nat) : Format Nat where
  write := writeVarint more
  read := readVarint top more

def word : Format Nat := varint 9 1

def halfWord : Format Nat := varint 4 15

def byte : Format UInt8 where
  write b := [b]
  read := Reader.byte

def bool : Format Bool where
  write b := [if b then 1 else 0]
  read := do
    match ← Reader.byte with
    | 0 => return false
    | 1 => return true
    | _ => throw .badBool

variable {α β : Type}

def map (f : Format α) (decode : α → β) (encode : β → α) : Format β where
  write b := f.write (encode b)
  read := decode <$> f.read

def pair (f : Format α) (g : Format β) : Format (α × β) where
  write p := f.write p.1 ++ g.write p.2
  read := do
    let a ← f.read
    let b ← g.read
    return (a, b)

def option (f : Format α) : Format (Option α) where
  write
    | none => [0]
    | some a => 1 :: f.write a
  read := do
    match ← Reader.byte with
    | 0 => return none
    | 1 => return some (← f.read)
    | _ => throw .badOption

def list (f : Format α) : Format (List α) where
  write as := word.write as.length ++ as.flatMap f.write
  read := do
    let n ← word.read
    Reader.many f.read n

/-- Sign and magnitude folded into a natural number: 0, -1, 1, -2, … -/
def zigzag (n : Int) : Nat := if 0 ≤ n then 2 * n.natAbs else 2 * n.natAbs - 1

def unzigzag (n : Nat) : Int := if n % 2 = 0 then (n / 2 : Nat) else -((n / 2 : Nat) + 1)

def int64 : Format Int64 := word.map (fun n => Int64.ofInt (unzigzag n)) (fun n => zigzag n.toInt)

end Format

end BlockMachine
