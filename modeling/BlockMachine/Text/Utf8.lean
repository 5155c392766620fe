/-!
# UTF-8
Bytes of a text, and the text of any bytes. Ill-formed input is read too: each longest start of a
sequence that cannot be completed becomes one replacement character. Bytes are well formed
exactly when writing what was read gives them back.
-/

namespace BlockMachine.Utf8
set_option autoImplicit false

def encodeChars (cs : List Char) : List UInt8 := cs.flatMap String.utf8EncodeChar

def encode (s : String) : List UInt8 := encodeChars s.toList

def replacement : Char := '\ufffd'

structure Begun where
  bits : Nat
  low : UInt8
  high : UInt8
  more : Nat
  deriving DecidableEq

/-- Reads a byte that starts a sequence. Overlong forms, surrogates and values past the last code
point are shut out by the range of the second byte. -/
def start (b : UInt8) : List Char × Option Begun :=
  let n := b.toNat
  if n < 0x80 then ([Char.ofNat n], none)
  else if n < 0xc2 then ([replacement], none)
  else if n < 0xe0 then ([], some ⟨n % 32, 0x80, 0xbf, 0⟩)
  else if n = 0xe0 then ([], some ⟨n % 16, 0xa0, 0xbf, 1⟩)
  else if n = 0xed then ([], some ⟨n % 16, 0x80, 0x9f, 1⟩)
  else if n < 0xf0 then ([], some ⟨n % 16, 0x80, 0xbf, 1⟩)
  else if n = 0xf0 then ([], some ⟨n % 8, 0x90, 0xbf, 2⟩)
  else if n < 0xf4 then ([], some ⟨n % 8, 0x80, 0xbf, 2⟩)
  else if n = 0xf4 then ([], some ⟨n % 8, 0x80, 0x8f, 2⟩)
  else ([replacement], none)

/-- Reads one byte inside or outside a sequence. A byte that does not continue a begun sequence
ends it with a replacement character and is read as a start. -/
def step : Option Begun → UInt8 → List Char × Option Begun
  | none, b => start b
  | some p, b =>
    if p.low ≤ b ∧ b ≤ p.high then
      let bits := p.bits * 64 + b.toNat % 64
      match p.more with
      | 0 => ([Char.ofNat bits], none)
      | more + 1 => ([], some ⟨bits, 0x80, 0xbf, more⟩)
    else
      (replacement :: (start b).1, (start b).2)

def decodeFrom : Option Begun → List UInt8 → List Char
  | none, [] => []
  | some _, [] => [replacement]
  | p, b :: bs => (step p b).1 ++ decodeFrom (step p b).2 bs

def decodeChars (bytes : List UInt8) : List Char := decodeFrom none bytes

def decode (bytes : List UInt8) : String := String.ofList (decodeChars bytes)

def WellFormed (bytes : List UInt8) : Prop := encode (decode bytes) = bytes

instance (bytes : List UInt8) : Decidable (WellFormed bytes) :=
  inferInstanceAs (Decidable (_ = _))

end BlockMachine.Utf8
