import GraphVault.Double.Rounding

/-!
# Doubles that are finite

Rounding a quotient leads to a double whose exponent follows from the size of the quotient. So the
numbers that are written with at most 64 bits of digits, and shrunk by powers of ten, are far from
the largest double.
-/

namespace GraphVault.Double

/-- The largest exponent bits of a finite double. -/
def maxExponentBits : Nat := 2046

theorem isFinite_of_le {d : Double} (h : d.exponentBits ≤ maxExponentBits) : d.isFinite := by
  rw [isFinite, bne_iff_ne]
  rw [maxExponentBits] at h
  omega

theorem isFinite_withSign (negative : Bool) (d : Double) :
    (d.withSign negative).isFinite = d.isFinite := by
  have hbits : d.bits.toNat < 2 ^ 64 := d.bits.toNat_lt
  have hsame : (d.withSign negative).exponentBits = d.exponentBits := by
    rw [exponentBits, exponentBits, withSign]
    cases negative
    · rw [if_neg (by decide), UInt64.toNat_ofNat']
      omega
    · rw [if_pos rfl, UInt64.toNat_ofNat']
      omega
  rw [isFinite, isFinite, hsame]

theorem isFinite_zero : zero.isFinite := by decide

/-! ### Rounding -/

private theorem roundDiv_bounds (num den : Nat) :
    num / den ≤ roundDiv num den ∧ roundDiv num den ≤ num / den + 1 := by
  unfold roundDiv
  dsimp only
  split
  · omega
  · split <;> omega

/-- A quotient that is scaled down by its own size is small. -/
private theorem scaled_div_lt {num den above below bound : Nat} {e : Int} (hnum : num < 2 ^ above)
    (hden : 2 ^ below ≤ den) (he : (above : Int) ≤ below + e + bound) :
    (scaled num den e).1 / (scaled num den e).2 < 2 ^ bound := by
  unfold scaled
  split
  · rename_i hpositive
    obtain ⟨c, rfl⟩ := Int.eq_ofNat_of_zero_le hpositive
    refine Nat.div_lt_of_lt_mul ?_
    calc num < 2 ^ above := hnum
      _ ≤ 2 ^ (below + c + bound) := Nat.pow_le_pow_right (by decide) (by omega)
      _ = 2 ^ below * 2 ^ c * 2 ^ bound := by rw [Nat.pow_add, Nat.pow_add]
      _ ≤ den * 2 ^ c * 2 ^ bound := Nat.mul_le_mul_right _ (Nat.mul_le_mul_right _ hden)
  · rename_i hnegative
    refine Nat.div_lt_of_lt_mul ?_
    calc num * 2 ^ (-e).toNat < 2 ^ above * 2 ^ (-e).toNat :=
          Nat.mul_lt_mul_of_pos_right hnum (Nat.two_pow_pos _)
      _ = 2 ^ (above + (-e).toNat) := (Nat.pow_add _ _ _).symm
      _ ≤ 2 ^ (below + bound) := Nat.pow_le_pow_right (by decide) (by omega)
      _ = 2 ^ below * 2 ^ bound := Nat.pow_add _ _ _
      _ ≤ den * 2 ^ bound := Nat.mul_le_mul_right _ hden

/-- A natural number that is scaled down by less than its size is large. -/
private theorem le_scaled_div {num above bound : Nat} {e : Int} (hnum : 2 ^ above ≤ num)
    (he : e + bound ≤ above) : 2 ^ bound ≤ (scaled num 1 e).1 / (scaled num 1 e).2 := by
  unfold scaled
  split
  · rename_i hpositive
    rw [Nat.one_mul, Nat.le_div_iff_mul_le (Nat.two_pow_pos _), ← Nat.pow_add]
    exact Nat.le_trans (Nat.pow_le_pow_right (by decide) (by omega)) hnum
  · rename_i hnegative
    rw [Nat.div_one]
    calc 2 ^ bound ≤ 2 ^ (above + (-e).toNat) := Nat.pow_le_pow_right (by decide) (by omega)
      _ = 2 ^ above * 2 ^ (-e).toNat := Nat.pow_add _ _ _
      _ ≤ num * 2 ^ (-e).toNat := Nat.mul_le_mul_right _ hnum

private theorem lastPlace_bounds (num den : Nat) :
    -1074 ≤ lastPlace num den ∧ (Nat.log2 num : Int) - Nat.log2 den - 53 ≤ lastPlace num den ∧
      lastPlace num den ≤ max (-1074) ((Nat.log2 num : Int) - Nat.log2 den - 52) := by
  unfold lastPlace
  dsimp only
  split <;> omega

/-- The exponent of a rounded quotient follows from its size. -/
theorem exponentBits_ofRatio_le {num den size : Nat} (hden : 0 < den) (h : num < 2 ^ size * den)
    (hsize : size ≤ 1020) : (ofRatio num den).exponentBits ≤ size + 1026 := by
  unfold ofRatio
  split
  · exact Nat.zero_le _
  · rename_i hpositive
    obtain ⟨hleast, hlow, hhigh⟩ := lastPlace_bounds num den
    have hnum := Nat.lt_log2_self (n := num)
    have hbelow := Nat.log2_self_le (Nat.pos_iff_ne_zero.1 hden)
    have hlog : Nat.log2 num < size + (Nat.log2 den + 1) := by
      refine (Nat.log2_lt hpositive).2 (Nat.lt_trans h ?_)
      rw [Nat.pow_add]
      exact Nat.mul_lt_mul_of_pos_left Nat.lt_log2_self (Nat.two_pow_pos _)
    have hquotient : (scaled num den (lastPlace num den)).1 / (scaled num den (lastPlace num den)).2
        < 2 ^ 54 := scaled_div_lt hnum hbelow (by omega)
    have hround := (roundDiv_bounds (scaled num den (lastPlace num den)).1
      (scaled num den (lastPlace num den)).2).2
    have hplace : (lastPlace num den + 1074).toNat ≤ size + 1022 := by omega
    have hbits : (lastPlace num den + 1074).toNat * 2 ^ 52
        + roundDiv (scaled num den (lastPlace num den)).1 (scaled num den (lastPlace num den)).2
          ≤ (size + 1026) * 2 ^ 52 := by
      omega
    dsimp only
    split
    · rename_i hfinite
      rw [exponentBits, UInt64.toNat_ofNat']
      omega
    · rename_i hlarge
      omega

/-! ### Values -/

private theorem ratio_pos (d : Double) : 0 < d.ratio.2 := by
  unfold ratio
  split
  · exact Nat.one_pos
  · exact Nat.two_pow_pos _

/-- The size of a double follows from its exponent. -/
private theorem ratio_lt {d : Double} {size : Nat} (h : d.exponentBits ≤ size + 1022) :
    d.ratio.1 < 2 ^ size * d.ratio.2 := by
  have hfraction : d.fractionBits < 2 ^ 52 := Nat.mod_lt _ (by decide)
  have hsignificand : d.significand < 2 ^ 53 := by
    unfold significand
    split <;> omega
  have hscale : d.scale + 53 ≤ size := by
    unfold scale
    split <;> omega
  unfold ratio
  split
  · rename_i hpositive
    obtain ⟨c, hc⟩ := Int.eq_ofNat_of_zero_le hpositive
    calc d.significand * 2 ^ d.scale.toNat < 2 ^ 53 * 2 ^ d.scale.toNat :=
          Nat.mul_lt_mul_of_pos_right hsignificand (Nat.two_pow_pos _)
      _ = 2 ^ (53 + d.scale.toNat) := (Nat.pow_add _ _ _).symm
      _ ≤ 2 ^ size := Nat.pow_le_pow_right (by decide) (by omega)
      _ = 2 ^ size * 1 := (Nat.mul_one _).symm
  · rename_i hnegative
    calc d.significand < 2 ^ 53 := hsignificand
      _ ≤ 2 ^ (size + (-d.scale).toNat) := Nat.pow_le_pow_right (by decide) (by omega)
      _ = 2 ^ size * 2 ^ (-d.scale).toNat := Nat.pow_add _ _ _

theorem exponentBits_ofNat_le {n size : Nat} (h : n < 2 ^ size) (hsize : size ≤ 1020) :
    (ofNat n).exponentBits ≤ size + 1026 :=
  exponentBits_ofRatio_le Nat.one_pos (by rwa [Nat.mul_one]) hsize

/-- Natural numbers that fit a word are finite doubles. -/
theorem isFinite_ofNat {n : Nat} (h : n < 2 ^ 64) : (ofNat n).isFinite :=
  isFinite_of_le (Nat.le_trans (exponentBits_ofNat_le h (by decide)) (by decide))

theorem isFinite_ofInt {n : Int} (h : n.natAbs < 2 ^ 64) : (ofInt n).isFinite := by
  rw [ofInt, isFinite_withSign]
  exact isFinite_ofNat h

/-! ### Decimals -/

/-- Rounding a natural number does not lead below one. -/
private theorem exponentBits_ofNat_ge {n : Nat} (h : 0 < n) : 1023 ≤ (ofNat n).exponentBits := by
  have hne : n ≠ 0 := Nat.pos_iff_ne_zero.1 h
  have hlog := Nat.log2_self_le hne
  have hone : Nat.log2 1 = 0 := by decide
  -- Scaled by the first guess a natural number fills all places, so the second one is taken.
  have hplace : lastPlace n 1 = (Nat.log2 n : Int) - 52 := by
    have hguess : 2 ^ 53 ≤ (scaled n 1 ((Nat.log2 n : Int) - 53)).1
        / (scaled n 1 ((Nat.log2 n : Int) - 53)).2 := le_scaled_div hlog (by omega)
    unfold lastPlace
    rw [hone]
    dsimp only
    rw [show (Nat.log2 n : Int) - (0 : Nat) - 53 = (Nat.log2 n : Int) - 53 by omega,
      if_neg (Nat.not_lt.2 hguess)]
    omega
  have hquotient : 2 ^ 52 ≤ (scaled n 1 (lastPlace n 1)).1 / (scaled n 1 (lastPlace n 1)).2 :=
    le_scaled_div hlog (by omega)
  have hround := (roundDiv_bounds (scaled n 1 (lastPlace n 1)).1
    (scaled n 1 (lastPlace n 1)).2).1
  have hpower : 1022 ≤ (lastPlace n 1 + 1074).toNat := by omega
  rw [ofNat, ofRatio, if_neg hne]
  dsimp only
  split
  · rename_i hfinite
    rw [exponentBits, UInt64.toNat_ofNat']
    omega
  · decide

private theorem one_le_ratio {d : Double} (h : 1023 ≤ d.exponentBits) : d.ratio.2 ≤ d.ratio.1 := by
  have hne : d.exponentBits ≠ 0 := by omega
  have hsignificand : 2 ^ 52 ≤ d.significand := by
    rw [significand, if_neg hne]
    omega
  have hscale : -52 ≤ d.scale := by
    rw [scale, if_neg hne]
    omega
  unfold ratio
  split
  · exact Nat.mul_pos (Nat.lt_of_lt_of_le (by decide) hsignificand) (Nat.two_pow_pos _)
  · exact Nat.le_trans (Nat.pow_le_pow_right (by decide) (by omega)) hsignificand

private theorem exponentBits_dividedBy_le {a : Double} {size k : Nat}
    (h : a.exponentBits ≤ size + 1022) (hsize : size ≤ 1020) :
    (a.dividedBy (tenPower k)).exponentBits ≤ size + 1026 := by
  have hone : (tenPower k).ratio.2 ≤ (tenPower k).ratio.1 :=
    one_le_ratio (exponentBits_ofNat_ge (Nat.pow_pos (by decide)))
  have hpos : 0 < (tenPower k).ratio.1 := Nat.lt_of_lt_of_le (ratio_pos _) hone
  refine exponentBits_ofRatio_le (Nat.mul_pos (ratio_pos a) hpos) ?_ hsize
  calc a.ratio.1 * (tenPower k).ratio.2 ≤ a.ratio.1 * (tenPower k).ratio.1 :=
        Nat.mul_le_mul_left _ hone
    _ < 2 ^ size * a.ratio.2 * (tenPower k).ratio.1 :=
        Nat.mul_lt_mul_of_pos_right (ratio_lt h) hpos
    _ = 2 ^ size * (a.ratio.2 * (tenPower k).ratio.1) := Nat.mul_assoc _ _ _

/-- Every division adds at most four to the exponent. -/
private theorem exponentBits_shrink_le {steps k size : Nat} {d : Double}
    (h : d.exponentBits ≤ size + 1022) (hsize : size + 4 * steps ≤ 1020) :
    (shrink steps d k).exponentBits ≤ maxExponentBits := by
  have hmax : maxExponentBits = 2046 := rfl
  induction steps generalizing k size d with
  | zero =>
    rw [shrink]
    decide
  | succ steps ih =>
    unfold shrink
    split
    · have hdivided := exponentBits_dividedBy_le (k := k) h (by omega)
      omega
    · split
      · omega
      · have hdivided := exponentBits_dividedBy_le (k := maxTenPower) h (by omega)
        exact ih (show _ ≤ size + 4 + 1022 from hdivided) (by omega)

/-- What is read with at most 64 bits of digits is finite. -/
theorem isFinite_of_ofDecimal {significand : Nat} {exponent : Int} {d : Double}
    (h : ofDecimal significand exponent = some d) (hsignificand : significand < 2 ^ 64) :
    d.isFinite := by
  have hexponent := exponentBits_ofNat_le hsignificand (by decide)
  unfold ofDecimal at h
  dsimp only at h
  split at h
  · cases h
    exact isFinite_of_le (exponentBits_shrink_le (show _ ≤ 68 + 1022 from hexponent) (by decide))
  · split at h
    · split at h
      · rename_i hfinite
        cases h
        exact hfinite
      · cases h
    · split at h
      · cases h
        exact isFinite_ofNat hsignificand
      · cases h

end GraphVault.Double
