/-!
# Doubles

Binary64 numbers as their 64 bits, so that equality is bit by bit: the payload of a NaN and the
sign of zero count.
-/

namespace GraphVault

/-- A binary64 number, given by its bits. -/
structure Double where
  bits : UInt64
  deriving DecidableEq, Inhabited

namespace Double

/-- Positive zero. -/
def zero : Double := ⟨0⟩

/-- Whether the sign bit is set. -/
def isNegative (d : Double) : Bool := 2 ^ 63 ≤ d.bits.toNat

/-- The eleven bits of the biased exponent. -/
def exponentBits (d : Double) : Nat := d.bits.toNat / 2 ^ 52 % 2 ^ 11

/-- The fifty-two bits of the fraction. -/
def fractionBits (d : Double) : Nat := d.bits.toNat % 2 ^ 52

/-- Whether the number is neither infinite nor a NaN. -/
def isFinite (d : Double) : Bool := d.exponentBits != 2047

/-- Whether the number is a zero of either sign. -/
def isZero (d : Double) : Bool := d.exponentBits == 0 && d.fractionBits == 0

/-- The integer that a finite number is a power of two times. -/
def significand (d : Double) : Nat :=
  if d.exponentBits = 0 then d.fractionBits else 2 ^ 52 + d.fractionBits

/-- The exponent of that power of two. -/
def scale (d : Double) : Int := if d.exponentBits = 0 then -1074 else d.exponentBits - 1075

/-- The same number with the given sign. -/
def withSign (negative : Bool) (d : Double) : Double :=
  ⟨UInt64.ofNat (d.bits.toNat % 2 ^ 63 + if negative then 2 ^ 63 else 0)⟩

end Double

end GraphVault
