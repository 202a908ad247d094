import GraphVault.Double

/-!
# Shortest decimals

The decimal with the fewest digits among those that are read back as a given double, and of
these the nearest; an exact tie goes to the even digit.
-/

namespace GraphVault

/-- The number `digits · 10 ^ exponent`. -/
structure Decimal where
  digits : Nat
  exponent : Int
  deriving DecidableEq, Repr

namespace Double

/-- The numbers that round to a double: a quarter of its last place is the unit, and the ends are
included when its significand is even. -/
structure Interval where
  lower : Nat
  centre : Nat
  upper : Nat
  closed : Bool
  scale : Int

/-- The interval of a finite positive double. -/
def interval (d : Double) : Interval :=
  let m := d.significand
  let below := if m = 2 ^ 52 ∧ 1 < d.exponentBits then 1 else 2
  ⟨4 * m - below, 4 * m, 4 * m + 2, m % 2 = 0, d.scale - 2⟩

namespace Interval

/-- Factors that turn a number of the interval's units and a multiple of `10 ^ k` into integers. -/
def factors (i : Interval) (k : Int) : Nat × Nat :=
  (2 ^ i.scale.toNat * 10 ^ (-k).toNat, 2 ^ (-i.scale).toNat * 10 ^ k.toNat)

/-- Whether `n · 10 ^ k` lies in the interval. -/
def holds (i : Interval) (k : Int) (n : Nat) : Bool :=
  let (unit, grid) := i.factors k
  if i.closed then i.lower * unit ≤ n * grid && n * grid ≤ i.upper * unit
  else i.lower * unit < n * grid && n * grid < i.upper * unit

/-- The multiple of `10 ^ k` in the interval that is nearest to its centre. -/
def nearest? (i : Interval) (k : Int) : Option Nat :=
  let (unit, grid) := i.factors k
  let n := i.centre * unit / grid
  let r := i.centre * unit % grid
  match i.holds k n, i.holds k (n + 1) with
  | true, true =>
    some (if 2 * r < grid then n else if grid < 2 * r then n + 1 else n + n % 2)
  | true, false => some n
  | false, true => some (n + 1)
  | false, false => none

/-- The first of the grids `10 ^ k`, `10 ^ (k - 1)`, … with a point in the interval. -/
def search (i : Interval) : Nat → Int → Decimal
  | 0, k => ⟨i.centre * (i.factors k).1 / (i.factors k).2, k⟩
  | steps + 1, k =>
    match i.nearest? k with
    | some n => ⟨n, k⟩
    | none => i.search steps (k - 1)

end Interval

/-- The shortest decimal of a finite positive double. -/
def shortest (d : Double) : Decimal :=
  let i := d.interval
  let binary : Int := Nat.log2 i.upper + 1 + i.scale
  i.search 25 (binary * 30103 / 100000 + 2)

end Double

end GraphVault
