import GraphVault.Bytes

/-!
# Little-endian words

Numbers laid out with the least significant byte first, in a fixed number of bytes.
-/

-- Powers of natural numbers are the built-in ones, whatever else they are imported together with.
attribute [instance (2000), default_instance 20000] instPowNat

namespace GraphVault.LittleEndian

/-- The lowest `width` bytes of `n`, least significant first. -/
def encode : Nat → Nat → Bytes
  | 0, _ => []
  | width + 1, n => UInt8.ofNat (n % 256) :: encode width (n / 256)

/-- The number whose bytes are given least significant first. -/
def decode : Bytes → Nat
  | [] => 0
  | b :: rest => b.toNat + 256 * decode rest

@[simp] theorem length_encode (width n : Nat) : (encode width n).length = width := by
  induction width generalizing n with
  | zero => rfl
  | succ width ih => simp [encode, ih]

theorem decode_encode {width n : Nat} (h : n < 256 ^ width) : decode (encode width n) = n := by
  induction width generalizing n with
  | zero => simp at h; simp [encode, decode, h]
  | succ width ih =>
    have hdiv : n / 256 < 256 ^ width := by
      rw [Nat.div_lt_iff_lt_mul (by decide)]
      simpa [Nat.pow_succ] using h
    simp [encode, decode, ih hdiv]
    omega

theorem decode_lt (bytes : Bytes) : decode bytes < 256 ^ bytes.length := by
  induction bytes with
  | nil => simp [decode]
  | cons b rest ih =>
    have := b.toNat_lt
    simp only [decode, List.length_cons, Nat.pow_succ]
    omega

/-- The eight bytes of a 64-bit word. -/
def word64 (w : UInt64) : Bytes := encode 8 w.toNat

/-- Reads a 64-bit word off the front of a byte string. -/
def takeWord64 (bytes : Bytes) : Option (UInt64 × Bytes) :=
  if bytes.length < 8 then none
  else some (UInt64.ofNat (decode (bytes.take 8)), bytes.drop 8)

theorem takeWord64_append (w : UInt64) (rest : Bytes) :
    takeWord64 (word64 w ++ rest) = some (w, rest) := by
  have hlen : (word64 w).length = 8 := by simp [word64]
  have hw : w.toNat < 256 ^ 8 := w.toNat_lt
  have hdecode : UInt64.ofNat (decode (word64 w)) = w := by
    rw [word64, decode_encode hw, UInt64.ofNat_toNat]
  rw [takeWord64, if_neg (by simp [hlen]), List.take_append_of_le_length (by omega),
    List.drop_append_of_le_length (by omega), List.take_of_length_le (by omega),
    List.drop_of_length_le (by omega), hdecode]
  rfl

end GraphVault.LittleEndian
