import GraphVault.Bytes.LittleEndian

/-!
# BLAKE3

The 32-byte BLAKE3 digest. A message is cut into chunks of 1024 bytes, a chunk into blocks of
64 bytes; chunks are the leaves of a binary tree in which every left subtree is complete.
-/

namespace GraphVault.Blake3

/-- A chaining value. -/
abbrev Chain := Vector UInt32 8

/-- The sixteen words of a block or of the mixing state. -/
abbrev Words := Vector UInt32 16

def chunkStart : UInt32 := 1
def chunkEnd : UInt32 := 2
def parent : UInt32 := 4
def root : UInt32 := 8

def chunkSize : Nat := 1024
def blockSize : Nat := 64

/-- The initial chaining value. -/
def initial : Chain :=
  #v[0x6A09E667, 0xBB67AE85, 0x3C6EF372, 0xA54FF53A, 0x510E527F, 0x9B05688C, 0x1F83D9AB, 0x5BE0CD19]

/-- Where each message word of the next round is taken from. -/
def permutation : Vector (Fin 16) 16 :=
  #v[2, 6, 3, 10, 7, 0, 4, 13, 1, 11, 12, 5, 9, 14, 15, 8]

def rotateRight (x n : UInt32) : UInt32 := (x >>> n) ||| (x <<< (32 - n))

/-- Mixes the words `x` and `y` into four words of the state. -/
def mix (v : Words) (a b c d : Fin 16) (x y : UInt32) : Words :=
  let v := v.set a (v[a] + v[b] + x)
  let v := v.set d (rotateRight (v[d] ^^^ v[a]) 16)
  let v := v.set c (v[c] + v[d])
  let v := v.set b (rotateRight (v[b] ^^^ v[c]) 12)
  let v := v.set a (v[a] + v[b] + y)
  let v := v.set d (rotateRight (v[d] ^^^ v[a]) 8)
  let v := v.set c (v[c] + v[d])
  v.set b (rotateRight (v[b] ^^^ v[c]) 7)

/-- Mixes the columns of the state and then its diagonals. -/
def round (v m : Words) : Words :=
  let v := mix v 0 4 8 12 m[0] m[1]
  let v := mix v 1 5 9 13 m[2] m[3]
  let v := mix v 2 6 10 14 m[4] m[5]
  let v := mix v 3 7 11 15 m[6] m[7]
  let v := mix v 0 5 10 15 m[8] m[9]
  let v := mix v 1 6 11 12 m[10] m[11]
  let v := mix v 2 7 8 13 m[12] m[13]
  mix v 3 4 9 14 m[14] m[15]

/-- Applies the given number of rounds, permuting the message between them. -/
def rounds : Nat → Words → Words → Words
  | 0, v, _ => v
  | n + 1, v, m => rounds n (round v m) (permutation.map fun i => m[i])

/-- The input of one compression. -/
structure Node where
  chain : Chain
  block : Words
  counter : UInt64
  length : UInt32
  flags : UInt32

/-- The chaining value that a node passes to its parent. -/
def Node.compress (n : Node) : Chain :=
  let h := n.chain
  let v := rounds 7
    #v[h[0], h[1], h[2], h[3], h[4], h[5], h[6], h[7], initial[0], initial[1], initial[2],
      initial[3], n.counter.toUInt32, (n.counter >>> 32).toUInt32, n.length, n.flags]
    n.block
  #v[v[0] ^^^ v[8], v[1] ^^^ v[9], v[2] ^^^ v[10], v[3] ^^^ v[11], v[4] ^^^ v[12], v[5] ^^^ v[13],
    v[6] ^^^ v[14], v[7] ^^^ v[15]]

/-- The words of a block, which is padded with zero bytes. -/
def words (block : Bytes) : Words :=
  Vector.ofFn fun i => UInt32.ofNat (LittleEndian.decode ((block.drop (4 * i)).take 4))

/-- The last block of a chunk of at most `blocks + 1` blocks, its earlier blocks absorbed. -/
def absorb : Nat → Chain → UInt32 → UInt64 → Bytes → Node
  | 0, h, start, counter, bytes =>
    ⟨h, words bytes, counter, UInt32.ofNat bytes.length, start ||| chunkEnd⟩
  | blocks + 1, h, start, counter, bytes =>
    if bytes.length ≤ blockSize then
      ⟨h, words bytes, counter, UInt32.ofNat bytes.length, start ||| chunkEnd⟩
    else
      let first : Node :=
        ⟨h, words (bytes.take blockSize), counter, UInt32.ofNat blockSize, start⟩
      absorb blocks first.compress 0 counter (bytes.drop blockSize)

/-- The node of one chunk. -/
def chunk (counter : UInt64) (bytes : Bytes) : Node := absorb 15 initial chunkStart counter bytes

/-- The node above two subtrees. -/
def join (left right : Node) : Node :=
  ⟨initial, left.compress ++ right.compress, 0, UInt32.ofNat blockSize, parent⟩

/-- The top node of at most `2 ^ height` chunks, of which the first has the number `counter`. -/
def tree : Nat → UInt64 → Bytes → Node
  | 0, counter, bytes => chunk counter bytes
  | height + 1, counter, bytes =>
    let left := chunkSize * 2 ^ height
    if bytes.length ≤ left then tree height counter bytes
    else
      join (tree height counter (bytes.take left))
        (tree height (counter + UInt64.ofNat (2 ^ height)) (bytes.drop left))

/-- The 32-byte digest of a message. -/
def hash (message : Bytes) : Bytes :=
  let top := tree (Nat.log2 (message.length / chunkSize) + 1) 0 message
  let digest := { top with flags := top.flags ||| root }.compress
  digest.toList.flatMap fun w => LittleEndian.encode 4 w.toNat

theorem length_hash (message : Bytes) : (hash message).length = 32 := by
  simp [hash, List.length_flatMap, List.map_const']

end GraphVault.Blake3
