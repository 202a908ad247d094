import GraphVault.Proofs.Derivation

/-!
# Digests in numbers

A digest is made of machine words in vectors, and to prove what it is from this takes long. The
digest of a message of one chunk is made of numbers in lists here, which a proof can compute at once
(`Blake3.hash_eq_digest`). So it can be decided what a guid names (`Guid.Names`).
-/

namespace GraphVault

namespace Blake3

/-- Four words of a mixing state. -/
structure Quarter (Word : Type) where
  a : Word
  b : Word
  c : Word
  d : Word

/-- One half of mixing: what becomes of four words with one word of the message. -/
def Quarter.half (q : Quarter UInt32) (x m n : UInt32) : Quarter UInt32 :=
  let a := q.a + q.b + x
  let d := rotateRight (q.d ^^^ a) m
  let c := q.c + d
  ⟨a, rotateRight (q.b ^^^ c) n, c, d⟩

/-! ### Numbers for words -/

namespace Numbers

/-- The size of the numbers that stand for words. -/
def size : Nat := 4294967296

def rotateRight (x n : Nat) : Nat := x >>> n ||| (x <<< (32 - n)) % size

def half (q : Quarter Nat) (x m n : Nat) : Quarter Nat :=
  let a := (q.a + q.b + x) % size
  let d := rotateRight (q.d ^^^ a) m
  let c := (q.c + d) % size
  ⟨a, rotateRight (q.b ^^^ c) n, c, d⟩

def replace (v : List Nat) (a b c d : Nat) (q : Quarter Nat) : List Nat :=
  (((v.set a q.a).set d q.d).set c q.c).set b q.b

def mix (v : List Nat) (a b c d x y : Nat) : List Nat :=
  replace v a b c d (half (half ⟨v.getD a 0, v.getD b 0, v.getD c 0, v.getD d 0⟩ x 16 12) y 8 7)

def round (v m : List Nat) : List Nat :=
  let v := mix v 0 4 8 12 (m.getD 0 0) (m.getD 1 0)
  let v := mix v 1 5 9 13 (m.getD 2 0) (m.getD 3 0)
  let v := mix v 2 6 10 14 (m.getD 4 0) (m.getD 5 0)
  let v := mix v 3 7 11 15 (m.getD 6 0) (m.getD 7 0)
  let v := mix v 0 5 10 15 (m.getD 8 0) (m.getD 9 0)
  let v := mix v 1 6 11 12 (m.getD 10 0) (m.getD 11 0)
  let v := mix v 2 7 8 13 (m.getD 12 0) (m.getD 13 0)
  mix v 3 4 9 14 (m.getD 14 0) (m.getD 15 0)

def rounds : Nat → List Nat → List Nat → List Nat
  | 0, v, _ => v
  | n + 1, v, m => rounds n (round v m) (permutation.toList.map fun i => m.getD i.val 0)

/-- The chaining value behind a block of the first chunk. -/
def compress (chain block : List Nat) (length flags : Nat) : List Nat :=
  let state := chain ++ [0x6A09E667, 0xBB67AE85, 0x3C6EF372, 0xA54FF53A, 0, 0, length, flags]
  let mixed := rounds 7 state block
  List.zipWith (· ^^^ ·) (mixed.take 8) (mixed.drop 8)

def words (block : Bytes) : List Nat :=
  (List.range 16).map fun i => LittleEndian.decode ((block.drop (4 * i)).take 4)

/-- The words of the digest of a chunk of at most `blocks + 1` blocks that is a whole message. -/
def absorb : Nat → List Nat → Nat → Bytes → List Nat
  | 0, chain, start, bytes => compress chain (words bytes) bytes.length (start ||| 10)
  | blocks + 1, chain, start, bytes =>
    if bytes.length ≤ 64 then compress chain (words bytes) bytes.length (start ||| 10)
    else absorb blocks (compress chain (words (bytes.take 64)) 64 start) 0 (bytes.drop 64)

/-- The digest of a message of at most one chunk. -/
def digest (message : Bytes) : Bytes :=
  (absorb 15 [0x6A09E667, 0xBB67AE85, 0x3C6EF372, 0xA54FF53A, 0x510E527F, 0x9B05688C, 0x1F83D9AB,
    0x5BE0CD19] 1 message).flatMap (LittleEndian.encode 4)

end Numbers

/-- The numbers that stand for words. -/
def numbers {n : Nat} (words : Vector UInt32 n) : List Nat := words.toList.map UInt32.toNat

/-- The numbers that stand for four words. -/
def Quarter.numbers (q : Quarter UInt32) : Quarter Nat :=
  ⟨q.a.toNat, q.b.toNat, q.c.toNat, q.d.toNat⟩

/-! ### Mixing four words -/

private theorem toNat_rotateRight (x n : UInt32) (hpos : 0 < n.toNat) (hlt : n.toNat < 32) :
    (rotateRight x n).toNat = Numbers.rotateRight x.toNat n.toNat := by
  have hsub : (32 - n).toNat = 32 - n.toNat :=
    UInt32.toNat_sub_of_le _ _ (UInt32.le_iff_toNat_le.2 (Nat.le_of_lt hlt))
  have hback : 32 - n.toNat < 32 := Nat.sub_lt (by decide) hpos
  rw [rotateRight, UInt32.toNat_or, UInt32.toNat_shiftRight, UInt32.toNat_shiftLeft, hsub,
    Nat.mod_eq_of_lt hlt, Nat.mod_eq_of_lt hback]
  rfl

private theorem half_numbers (q : Quarter UInt32) (x : UInt32) {m n : UInt32}
    (hm : 0 < m.toNat ∧ m.toNat < 32) (hn : 0 < n.toNat ∧ n.toNat < 32) :
    Numbers.half q.numbers x.toNat m.toNat n.toNat = (q.half x m n).numbers := by
  have hsum (a b : UInt32) : (a + b).toNat = (a.toNat + b.toNat) % Numbers.size :=
    UInt32.toNat_add a b
  simp only [Numbers.half, Quarter.numbers, Quarter.half, hsum, toNat_rotateRight _ _ hm.1 hm.2,
    toNat_rotateRight _ _ hn.1 hn.2, UInt32.toNat_xor, Nat.mod_add_mod]

/-! ### Mixing within the state -/

section

variable {n : Nat} {a b c d : Fin n}

/-- Four words of the state. -/
private def quarter (v : Vector UInt32 n) (a b c d : Fin n) : Quarter UInt32 :=
  ⟨v[a], v[b], v[c], v[d]⟩

/-- The state in which four words have been replaced. -/
private def replace (v : Vector UInt32 n) (a b c d : Fin n) (q : Quarter UInt32) :
    Vector UInt32 n :=
  (((v.set a q.a).set d q.d).set c q.c).set b q.b

/-- One half of mixing four words of the state. -/
private def halfway (v : Vector UInt32 n) (a b c d : Fin n) (x k l : UInt32) : Vector UInt32 n :=
  let v := v.set a (v[a] + v[b] + x)
  let v := v.set d (rotateRight (v[d] ^^^ v[a]) k)
  let v := v.set c (v[c] + v[d])
  v.set b (rotateRight (v[b] ^^^ v[c]) l)

private theorem quarter_replace (h : [a, b, c, d].Nodup) (v : Vector UInt32 n)
    (q : Quarter UInt32) : quarter (replace v a b c d q) a b c d = q := by
  simp only [List.nodup_cons, List.mem_cons, List.not_mem_nil, or_false, not_or, Fin.ext_iff] at h
  obtain ⟨⟨hab, hac, had⟩, ⟨hbc, hbd⟩, hcd, -⟩ := h
  simp only [quarter, replace, Fin.getElem_fin, Vector.getElem_set_self, Vector.getElem_set_ne,
    ne_eq, Ne.symm hab, Ne.symm hac, Ne.symm had, hbc, hbd, hcd, not_false_eq_true]

private theorem replace_replace (v : Vector UInt32 n) (p q : Quarter UInt32) :
    replace (replace v a b c d p) a b c d q = replace v a b c d q := by
  ext i hi
  simp only [replace, Vector.getElem_set]
  grind

private theorem halfway_eq (h : [a, b, c, d].Nodup) (v : Vector UInt32 n) (x k l : UInt32) :
    halfway v a b c d x k l = replace v a b c d ((quarter v a b c d).half x k l) := by
  simp only [List.nodup_cons, List.mem_cons, List.not_mem_nil, or_false, not_or, Fin.ext_iff] at h
  obtain ⟨⟨hab, hac, had⟩, ⟨hbc, hbd⟩, hcd, -⟩ := h
  simp only [halfway, replace, quarter, Quarter.half, Fin.getElem_fin, Vector.getElem_set_self,
    Vector.getElem_set_ne, ne_eq, hab, hac, had, Ne.symm hbc, Ne.symm hbd, Ne.symm hcd,
    not_false_eq_true]

private theorem numbers_set (v : Vector UInt32 n) (i : Fin n) (x : UInt32) :
    numbers (v.set i x) = (numbers v).set i x.toNat := by
  simp [numbers, Vector.toList_set, List.map_set]

private theorem getD_numbers (v : Vector UInt32 n) (i : Fin n) :
    (numbers v).getD i 0 = v[i].toNat := by
  simp [numbers]

private theorem numbers_replace (v : Vector UInt32 n) (a b c d : Fin n) (q : Quarter UInt32) :
    numbers (replace v a b c d q) = Numbers.replace (numbers v) a b c d q.numbers := by
  rw [replace, numbers_set, numbers_set, numbers_set, numbers_set]
  rfl

end

/-- Mixing takes the four words through both halves. -/
private theorem mix_eq {a b c d : Fin 16} (h : [a, b, c, d].Nodup) (v : Words) (x y : UInt32) :
    mix v a b c d x y
      = replace v a b c d (((quarter v a b c d).half x 16 12).half y 8 7) := by
  have hhalves : mix v a b c d x y = halfway (halfway v a b c d x 16 12) a b c d y 8 7 := rfl
  rw [hhalves, halfway_eq h, halfway_eq h, quarter_replace h, replace_replace]

private theorem mix_numbers {a b c d : Fin 16} (h : [a, b, c, d].Nodup) (v : Words)
    (x y : UInt32) :
    Numbers.mix (numbers v) a b c d x.toNat y.toNat = numbers (mix v a b c d x y) := by
  have h16 : 0 < (16 : UInt32).toNat ∧ (16 : UInt32).toNat < 32 := by decide
  have h12 : 0 < (12 : UInt32).toNat ∧ (12 : UInt32).toNat < 32 := by decide
  have h8 : 0 < (8 : UInt32).toNat ∧ (8 : UInt32).toNat < 32 := by decide
  have h7 : 0 < (7 : UInt32).toNat ∧ (7 : UInt32).toNat < 32 := by decide
  rw [mix_eq h, numbers_replace, ← half_numbers _ _ h8 h7, ← half_numbers _ _ h16 h12, Numbers.mix]
  simp only [getD_numbers]
  rfl

private theorem round_numbers (v m : Words) :
    Numbers.round (numbers v) (numbers m) = numbers (round v m) := by
  have hword {i : Nat} (h : i < 16) : (numbers m).getD i 0 = m[i].toNat := getD_numbers m ⟨i, h⟩
  have hmix (a b c d : Fin 16) (h : [a, b, c, d].Nodup) (v : Words) (x y : UInt32) :=
    mix_numbers h v x y
  have hmix0 := hmix 0 4 8 12 (by decide)
  have hmix1 := hmix 1 5 9 13 (by decide)
  have hmix2 := hmix 2 6 10 14 (by decide)
  have hmix3 := hmix 3 7 11 15 (by decide)
  have hmix4 := hmix 0 5 10 15 (by decide)
  have hmix5 := hmix 1 6 11 12 (by decide)
  have hmix6 := hmix 2 7 8 13 (by decide)
  have hmix7 := hmix 3 4 9 14 (by decide)
  simp (disch := decide) only [Numbers.round, round, hword]
  rw [← hmix7, ← hmix6, ← hmix5, ← hmix4, ← hmix3, ← hmix2, ← hmix1, ← hmix0]
  rfl

private theorem rounds_numbers (n : Nat) (v m : Words) :
    Numbers.rounds n (numbers v) (numbers m) = numbers (rounds n v m) := by
  induction n generalizing v m with
  | zero => rfl
  | succ n ih =>
    have hwords : numbers (permutation.map fun i => m[i])
        = permutation.toList.map fun i => (numbers m).getD i.val 0 := by
      simp [numbers, Vector.toList_map]
    rw [Numbers.rounds, rounds, ← ih, round_numbers, hwords]

/-! ### One chunk -/

private theorem halves_numbers (v : Words) :
    List.zipWith (· ^^^ ·) ((numbers v).take 8) ((numbers v).drop 8)
      = numbers #v[v.get 0 ^^^ v.get 8, v.get 1 ^^^ v.get 9, v.get 2 ^^^ v.get 10,
        v.get 3 ^^^ v.get 11, v.get 4 ^^^ v.get 12, v.get 5 ^^^ v.get 13, v.get 6 ^^^ v.get 14,
        v.get 7 ^^^ v.get 15] := by
  obtain ⟨⟨words⟩, hsize⟩ := v
  match words, hsize with
  | [_, _, _, _, _, _, _, _, _, _, _, _, _, _, _, _], _ => rfl

private theorem compress_numbers (chain : Chain) (block : Words) (length flags : UInt32) :
    Numbers.compress (numbers chain) (numbers block) length.toNat flags.toNat
      = numbers (Node.compress ⟨chain, block, 0, length, flags⟩) := by
  have hstart : numbers chain
        ++ [0x6A09E667, 0xBB67AE85, 0x3C6EF372, 0xA54FF53A, 0, 0, length.toNat, flags.toNat]
      = numbers #v[chain.get 0, chain.get 1, chain.get 2, chain.get 3, chain.get 4, chain.get 5,
        chain.get 6, chain.get 7, initial.get 0, initial.get 1, initial.get 2, initial.get 3,
        (0 : UInt64).toUInt32, ((0 : UInt64) >>> 32).toUInt32, length, flags] := by
    obtain ⟨⟨words⟩, hsize⟩ := chain
    match words, hsize with
    | [_, _, _, _, _, _, _, _], _ => rfl
  rw [Numbers.compress, hstart, rounds_numbers]
  exact halves_numbers _

private theorem words_numbers (block : Bytes) : Numbers.words block = numbers (words block) := by
  have hword (bytes : Bytes) (h : bytes.length ≤ 4) :
      (UInt32.ofNat (LittleEndian.decode bytes)).toNat = LittleEndian.decode bytes := by
    apply UInt32.toNat_ofNat_of_lt'
    have hlt := LittleEndian.decode_lt bytes
    have hpow : 256 ^ bytes.length ≤ 256 ^ 4 := Nat.pow_le_pow_right (by decide) h
    exact Nat.lt_of_lt_of_le hlt hpow
  apply List.ext_getElem
  · simp [Numbers.words, numbers]
  · intro i hi _
    simp only [Numbers.words, numbers, words, List.getElem_map, List.getElem_range,
      Vector.getElem_toList, Vector.getElem_ofFn]
    exact (hword _ (List.length_take_le 4 _)).symm

private theorem last_numbers (chain : Chain) (start : UInt32) {bytes : Bytes}
    (h : bytes.length < 2 ^ 32) :
    Numbers.compress (numbers chain) (Numbers.words bytes) bytes.length (start.toNat ||| 10)
      = numbers (Node.compress ⟨chain, words bytes, 0, UInt32.ofNat bytes.length,
        (start ||| chunkEnd) ||| root⟩) := by
  have hlength : (UInt32.ofNat bytes.length).toNat = bytes.length := UInt32.toNat_ofNat_of_lt' h
  have hflags : ((start ||| chunkEnd) ||| root).toNat = start.toNat ||| 10 := by
    rw [UInt32.or_assoc, UInt32.toNat_or]
    rfl
  rw [← compress_numbers, words_numbers, hlength, hflags]

private theorem absorb_numbers (blocks : Nat) (chain : Chain) (start : UInt32) {bytes : Bytes}
    (h : bytes.length < 2 ^ 32) :
    Numbers.absorb blocks (numbers chain) start.toNat bytes
      = numbers (Node.compress { absorb blocks chain start 0 bytes with
          flags := (absorb blocks chain start 0 bytes).flags ||| root }) := by
  induction blocks generalizing chain start bytes with
  | zero => exact last_numbers chain start h
  | succ blocks ih =>
    by_cases hlast : bytes.length ≤ 64
    · have habsorb : absorb (blocks + 1) chain start 0 bytes
          = ⟨chain, words bytes, 0, UInt32.ofNat bytes.length, start ||| chunkEnd⟩ :=
        if_pos hlast
      rw [Numbers.absorb, if_pos hlast, habsorb]
      exact last_numbers chain start h
    · have habsorb : absorb (blocks + 1) chain start 0 bytes
          = absorb blocks (Node.compress ⟨chain, words (bytes.take 64), 0, 64, start⟩) 0 0
            (bytes.drop 64) := if_neg hlast
      have hrest : (bytes.drop 64).length < 2 ^ 32 := by
        rw [List.length_drop]
        omega
      rw [Numbers.absorb, if_neg hlast, habsorb, ← ih _ _ hrest, ← compress_numbers,
        words_numbers]
      rfl

/-- The digest of a message of one chunk is computed with numbers. -/
theorem hash_eq_digest {message : Bytes} (h : message.length ≤ chunkSize) :
    hash message = Numbers.digest message := by
  have hheight : Nat.log2 (message.length / chunkSize) = 0 := by
    have hquotient : message.length / chunkSize ≤ 1 := Nat.div_le_of_le_mul (by omega)
    obtain hzero | hone := Nat.le_one_iff_eq_zero_or_eq_one.1 hquotient
    · rw [hzero]
      rfl
    · rw [hone]
      rfl
  have htree : tree 1 0 message = absorb 15 initial chunkStart 0 message := if_pos h
  have hlength : message.length < 2 ^ 32 := Nat.lt_of_le_of_lt h (by decide)
  have habsorb := absorb_numbers 15 initial chunkStart hlength
  rw [hash, hheight, htree, Numbers.digest]
  show List.flatMap _ _ = (Numbers.absorb 15 (numbers initial) chunkStart.toNat message).flatMap _
  rw [habsorb, numbers, List.flatMap_map]

end Blake3

/-- A guid is the digest of a content of one chunk. -/
def Guid.Names (guid : Guid) (content : Bytes) : Prop :=
  content.length ≤ Blake3.chunkSize ∧ Blake3.Numbers.digest content = guid.bytes

instance (guid : Guid) (content : Bytes) : Decidable (guid.Names content) :=
  inferInstanceAs (Decidable (_ ∧ _))

theorem Guid.Names.eq {guid : Guid} {content : Bytes} (h : guid.Names content) :
    ofContent content = guid := by
  apply Guid.eq_of_bytes
  exact (Blake3.hash_eq_digest h.1).trans h.2

/-- An instance is accepted if its guid and those of its outputs name what they are derived from. -/
theorem Instance.verify_of_names {i : Instance}
    (hguid : i.guid.Names (Derivation.instanceContent i.description i.inputs))
    (houtputs : ∀ slot guid, i.outputs.get? slot = some guid →
      guid.Names (Derivation.outputContent i.guid slot)) : i.verify = .ok () :=
  verify_eq_ok_iff.2 ⟨hguid.eq.symm, fun slot guid hslot => (houtputs slot guid hslot).eq.symm⟩

end GraphVault
