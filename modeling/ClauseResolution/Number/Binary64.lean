/-!
# Double precision numbers

A number of the binary64 format is kept as its 64 bits: the sign, eleven bits of
exponent and fifty-two bits of fraction. Sign, class and exact value are read
off the bits in natural-number arithmetic, so all of them can be reasoned about.
-/

namespace ClauseResolution

/-- A power of two. -/
def twoPow (n : Nat) : Nat := Nat.pow 2 n

/-- A power of ten. -/
def tenPow (n : Nat) : Nat := Nat.pow 10 n

/-- A number of the binary64 format, given by its bits. -/
structure Binary64 where
  /-- Sign, exponent and fraction, from the highest bit to the lowest. -/
  bits : UInt64
  deriving DecidableEq

namespace Binary64

/-- The sign bit is set. -/
def isNegative (x : Binary64) : Bool := decide (twoPow 63 ≤ x.bits.toNat)

/-- The eleven bits after the sign. -/
def exponentField (x : Binary64) : Nat := x.bits.toNat / twoPow 52 % twoPow 11

/-- The fifty-two lowest bits. -/
def fractionField (x : Binary64) : Nat := x.bits.toNat % twoPow 52

/-- An exponent field of ones is reserved for infinities and for what is not a number. -/
def isFinite (x : Binary64) : Bool := decide (x.exponentField ≠ twoPow 11 - 1)

/-- The reserved exponent with a fraction denotes no number. -/
def isNaN (x : Binary64) : Bool := !x.isFinite && decide (x.fractionField ≠ 0)

/-- Either zero. -/
def isZero (x : Binary64) : Bool := decide (x.bits.toNat % twoPow 63 = 0)

/-- The integer `m` in the exact magnitude `m * 2 ^ scale` of a finite number. The
leading one is stored only for exponent field zero. -/
def significand (x : Binary64) : Nat :=
  if x.exponentField = 0 then x.fractionField else twoPow 52 + x.fractionField

/-- The exponent of two in the exact magnitude of a finite number. -/
def scale (x : Binary64) : Int := (max x.exponentField 1 : Nat) - 1075

/-- Numerical equality: the two zeros are equal, and what is not a number equals nothing. -/
def same (x y : Binary64) : Bool :=
  !x.isNaN && !y.isNaN && (decide (x = y) || (x.isZero && y.isZero))

/-- A finite number without fractional part. -/
def isIntegral (x : Binary64) : Bool :=
  x.isFinite && decide (x.significand % twoPow (-x.scale).toNat = 0)

/-- The magnitude of a number without fractional part. -/
def integralMagnitude (x : Binary64) : Nat :=
  x.significand * twoPow x.scale.toNat / twoPow (-x.scale).toNat

/-- The number a machine float holds. -/
def ofFloat (x : Float) : Binary64 := ⟨x.toBits⟩

end Binary64

end ClauseResolution
