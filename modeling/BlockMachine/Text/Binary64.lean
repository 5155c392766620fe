/-!
# Text of binary64 numbers
A finite number is written without an exponent, with the fewest significant digits that read back
as the same number; of two such texts the nearer one is taken, and the larger on a tie.

The number is an integer multiple of a power of two. The numbers that round to it form an
interval, and its text is a point in that interval of the coarsest power-of-ten grid that has one.
-/

namespace BlockMachine.Binary64
set_option autoImplicit false

/-- A positive finite number in quarters of its last place: the value and the two ends of the
interval that rounds to it, all times two to the power of the exponent. -/
structure Interval where
  low : Nat
  value : Nat
  high : Nat
  exponent : Int
  closed : Bool
  deriving DecidableEq

/-- The lower neighbour of a power of two is half as far away as the upper one. -/
def interval (mantissa : Nat) (biased : Nat) : Interval :=
  let m := if biased = 0 then mantissa else mantissa + 0x10000000000000
  let below := if mantissa = 0 ∧ 1 < biased then 1 else 2
  { low := 4 * m - below
    value := 4 * m
    high := 4 * m + 2
    exponent := (if biased = 0 then 1 else biased : Nat) - 1077
    closed := m % 2 = 0 }

def Interval.onGrid (i : Interval) (k : Int) : Option Nat :=
  let unit := Nat.pow 10 k.toNat * Nat.pow 2 (-i.exponent).toNat
  let scale := Nat.pow 10 (-k).toNat * Nat.pow 2 i.exponent.toNat
  let within (c : Nat) : Bool :=
    if i.closed then i.low * scale ≤ c * unit && c * unit ≤ i.high * scale
    else i.low * scale < c * unit && c * unit < i.high * scale
  let c := i.value * scale / unit
  match within c, within (c + 1) with
  | true, true =>
    if i.value * scale - c * unit < (c + 1) * unit - i.value * scale then some c else some (c + 1)
  | true, false => some c
  | false, true => some (c + 1)
  | false, false => none

/-- The coarsest grid with a point in the interval. No binary64 number needs a grid outside
the powers 309 down to -342. -/
def Interval.shortest (i : Interval) : Nat × Int :=
  ((List.range 652).findSome? fun (j : Nat) =>
    let k : Int := 309 - j
    (i.onGrid k).map (·, k)).getD (0, 0)

def positional (digits : List Char) (k : Int) : List Char :=
  if 0 ≤ k then digits ++ List.replicate k.toNat '0'
  else
    let places := (-k).toNat
    let padded := List.replicate (places + 1 - digits.length) '0' ++ digits
    padded.take (padded.length - places) ++ '.' :: padded.drop (padded.length - places)

def magnitude (mantissa biased : Nat) : List Char :=
  if mantissa = 0 ∧ biased = 0 then ['0']
  else
    let (c, k) := (interval mantissa biased).shortest
    positional (Nat.toDigits 10 c) k

def text (bits : UInt64) : String :=
  let n := bits.toNat
  let mantissa := n % 0x10000000000000
  let biased := n / 0x10000000000000 % 0x800
  let sign := if 0x8000000000000000 ≤ n then ['-'] else []
  if biased = 2047 then
    if mantissa = 0 then String.ofList (sign ++ ['i', 'n', 'f']) else "NaN"
  else
    String.ofList (sign ++ magnitude mantissa biased)

end BlockMachine.Binary64
