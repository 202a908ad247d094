import GraphVault.Double

/-!
# Rounding to doubles

The double nearest to a quotient of natural numbers, ties to the even significand, and the
arithmetic on nonnegative doubles that is defined by rounding the exact result.
-/

namespace GraphVault.Double

/-- Positive infinity. -/
def infinity : Double := ⟨0x7FF0000000000000⟩

/-- The quotient rounded to the nearest natural number, a half to the even neighbour. -/
def roundDiv (num den : Nat) : Nat :=
  let q := num / den
  let r := num % den
  if 2 * r < den then q else if 2 * r > den then q + 1 else q + q % 2

/-- `num / (den * 2 ^ e)`, as a numerator and a denominator. -/
def scaled (num den : Nat) (e : Int) : Nat × Nat :=
  if 0 ≤ e then (num, den * 2 ^ e.toNat) else (num * 2 ^ (-e).toNat, den)

/-- The exponent of the last place of a double near `num / den`. -/
def lastPlace (num den : Nat) : Int :=
  let e : Int := (Nat.log2 num : Int) - Nat.log2 den - 53
  let (n, d) := scaled num den e
  max (-1074) (if n / d < 2 ^ 53 then e else e + 1)

/-- The nonnegative double nearest to `num / den`. -/
def ofRatio (num den : Nat) : Double :=
  if num = 0 then zero
  else
    let e := lastPlace num den
    let (n, d) := scaled num den e
    let bits := (e + 1074).toNat * 2 ^ 52 + roundDiv n d
    if bits < 0x7FF0000000000000 then ⟨UInt64.ofNat bits⟩ else infinity

/-- The double nearest to a natural number. -/
def ofNat (n : Nat) : Double := ofRatio n 1

/-- The double nearest to an integer. -/
def ofInt (n : Int) : Double := (ofNat n.natAbs).withSign (n < 0)

/-- The value of a finite nonnegative double, as a numerator and a denominator. -/
def ratio (d : Double) : Nat × Nat :=
  if 0 ≤ d.scale then (d.significand * 2 ^ d.scale.toNat, 1)
  else (d.significand, 2 ^ (-d.scale).toNat)

/-- The product of finite nonnegative doubles, rounded. -/
def multipliedBy (a b : Double) : Double :=
  ofRatio (a.ratio.1 * b.ratio.1) (a.ratio.2 * b.ratio.2)

/-- The quotient of finite nonnegative doubles, rounded. -/
def dividedBy (a b : Double) : Double :=
  ofRatio (a.ratio.1 * b.ratio.2) (a.ratio.2 * b.ratio.1)

/-- The largest power of ten that decimals are scaled by at once. -/
def maxTenPower : Nat := 308

/-- The double nearest to a power of ten. -/
def tenPower (k : Nat) : Double := ofNat (10 ^ k)

/-- Divides by ten to the `k`, at most `maxTenPower` places at a time; two full divisions bring
every 64-bit significand to zero. -/
def shrink : Nat → Double → Nat → Double
  | 0, _, _ => zero
  | steps + 1, d, k =>
    if k ≤ maxTenPower then d.dividedBy (tenPower k)
    else if d.isZero then d
    else shrink steps (d.dividedBy (tenPower maxTenPower)) (k - maxTenPower)

/-- Reads `significand · 10 ^ exponent` as the nearest double of the significand scaled by one
rounded power of ten; `none` where that is out of range. -/
def ofDecimal (significand : Nat) (exponent : Int) : Option Double :=
  let d := ofNat significand
  if exponent < 0 then some (shrink 4 d exponent.natAbs)
  else if exponent.natAbs ≤ maxTenPower then
    let scaled := d.multipliedBy (tenPower exponent.natAbs)
    if scaled.isFinite then some scaled else none
  else if d.isZero then some d
  else none

end GraphVault.Double
