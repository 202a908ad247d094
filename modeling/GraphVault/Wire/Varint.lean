import GraphVault.Bytes
import GraphVault.Wire.Fault

/-!
# Variable-length numbers

A natural number as groups of seven bits, lowest group first; every byte but the last has its high
bit set. Reading accepts superfluous zero groups, but no more bytes than the width of the number
needs and no bits beyond it. Main statement: what is written is read back, with the bytes behind it
untouched (`decode_encode`).
-/

namespace GraphVault.Wire.Varint

/-- The groups of `n`, with at most `more` bytes before the last one. -/
def encode : Nat → Nat → Bytes
  | 0, n => [UInt8.ofNat n]
  | more + 1, n =>
    if n < 128 then [UInt8.ofNat n] else UInt8.ofNat (128 + n % 128) :: encode more (n / 128)

/-- Reads a number of at most `more` bytes and a last one, which is at most `last`. -/
def decode (last : Nat) : Nat → Bytes → Except Fault (Nat × Bytes)
  | _, [] => .error .endOfInput
  | 0, b :: rest => if b.toNat ≤ last then .ok (b.toNat, rest) else .error .varint
  | more + 1, b :: rest =>
    if b.toNat < 128 then .ok (b.toNat, rest)
    else do
      let (n, rest) ← decode last more rest
      return (b.toNat - 128 + 128 * n, rest)

theorem toNat_ofNat {n : Nat} (h : n < 256) : (UInt8.ofNat n).toNat = n := by
  simp [Nat.mod_eq_of_lt h]

theorem decode_encode {last more n : Nat} (rest : Bytes) (hlast : last < 128)
    (hn : n < 128 ^ more * (last + 1)) :
    decode last more (encode more n ++ rest) = .ok (n, rest) := by
  induction more generalizing n with
  | zero =>
    rw [Nat.pow_zero, Nat.one_mul] at hn
    rw [encode, List.singleton_append, decode, toNat_ofNat (by omega), if_pos (by omega)]
  | succ more ih =>
    rw [encode]
    split
    · rw [List.singleton_append, decode, toNat_ofNat (by omega), if_pos (by omega)]
    · have hdiv : n / 128 < 128 ^ more * (last + 1) := by
        rw [Nat.div_lt_iff_lt_mul (by decide)]
        rw [Nat.pow_succ] at hn
        exact Nat.lt_of_lt_of_eq hn (by ac_rfl)
      rw [List.cons_append, decode, toNat_ofNat (by omega), if_neg (by omega), ih hdiv]
      simp only [bind, Except.bind, pure, Except.pure, Except.ok.injEq, Prod.mk.injEq, and_true]
      omega

end GraphVault.Wire.Varint
