import GraphVault.Bytes.LittleEndian
import GraphVault.Double
import GraphVault.SortedMap
import GraphVault.Wire.Varint

/-!
# Wire codecs

A codec pairs the wire form of a type with a reader, which takes a value off the front of a byte
string. Values follow each other without separators: numbers are varints, doubles eight bytes, and
texts, lists and maps are preceded by their length. `Codec.Restores` says that a written value is
read back with the bytes behind it untouched.
-/

namespace GraphVault.Wire

/-- A wire form and its reader. -/
structure Codec (α : Type) where
  encode : α → Bytes
  decode : Bytes → Except Fault (α × Bytes)

namespace Codec

variable {α β : Type}

/-- Whether a codec reads a value back from its wire form, whatever follows. -/
def Restores (codec : Codec α) (a : α) : Prop :=
  ∀ rest, codec.decode (codec.encode a ++ rest) = .ok (a, rest)

/-- Reads a value from the front of a byte string and ignores what follows. -/
def read (codec : Codec α) (bytes : Bytes) : Except Fault α := (·.1) <$> codec.decode bytes

/-- A codec of a type whose values are written as values of another; `ofWire` may refuse one. -/
def via (codec : Codec β) (toWire : α → β) (ofWire : β → Except Fault α) : Codec α where
  encode a := codec.encode (toWire a)
  decode bytes := do
    let (b, rest) ← codec.decode bytes
    return (← ofWire b, rest)

/-- Values that take no bytes. -/
def unit : Codec Unit := ⟨fun _ => [], fun bytes => .ok ((), bytes)⟩

/-- Two values, one after the other. -/
def pair (first : Codec α) (second : Codec β) : Codec (α × β) where
  encode p := first.encode p.1 ++ second.encode p.2
  decode bytes := do
    let (a, rest) ← first.decode bytes
    let (b, rest) ← second.decode rest
    return ((a, b), rest)

/-- Numbers below `2 ^ 64`: at most ten bytes, the tenth at most 1. -/
def natural : Codec Nat := ⟨Varint.encode 9, Varint.decode 1 9⟩

/-- Unsigned 64-bit words. -/
def word : Codec UInt64 := natural.via UInt64.toNat fun n => .ok (UInt64.ofNat n)

/-- Variant numbers below `2 ^ 32`: at most five bytes, the fifth at most 15. -/
def discriminant : Codec Nat := ⟨Varint.encode 4, Varint.decode 15 4⟩

/-- The natural number of an integer: 0, -1, 1, -2, … are 0, 1, 2, 3, …. -/
def zigzag (n : Int) : Nat := if 0 ≤ n then 2 * n.natAbs else 2 * n.natAbs - 1

/-- The integer of a natural number. -/
def unzigzag (n : Nat) : Int := if n % 2 = 0 then (n / 2 : Nat) else -((n / 2 : Nat) : Int) - 1

/-- Signed 64-bit words. -/
def integer : Codec Int64 :=
  natural.via (fun n => zigzag n.toInt) fun n => .ok (Int64.ofInt (unzigzag n))

/-- Single bytes. -/
def byte : Codec UInt8 where
  encode b := [b]
  decode
    | [] => .error .endOfInput
    | b :: rest => .ok (b, rest)

/-- Doubles, as eight bytes. -/
def double : Codec Double where
  encode d := LittleEndian.word64 d.bits
  decode bytes :=
    match LittleEndian.takeWord64 bytes with
    | some (w, rest) => .ok (⟨w⟩, rest)
    | none => .error .endOfInput

/-- Texts: the number of bytes, then the bytes. -/
def text : Codec String where
  encode s := natural.encode (Bytes.ofText s).length ++ Bytes.ofText s
  decode bytes := do
    let (n, rest) ← natural.decode bytes
    if rest.length < n then throw .endOfInput
    match Bytes.text? (rest.take n) with
    | some s => return (s, rest.drop n)
    | none => throw .text

/-- Reads a given number of values. -/
def decodeMany (codec : Codec α) : Nat → Bytes → Except Fault (List α × Bytes)
  | 0, bytes => .ok ([], bytes)
  | n + 1, bytes => do
    let (a, rest) ← codec.decode bytes
    let (as, rest) ← decodeMany codec n rest
    return (a :: as, rest)

/-- Lists: the number of values, then the values. -/
def list (codec : Codec α) : Codec (List α) where
  encode as := natural.encode as.length ++ as.flatMap codec.encode
  decode bytes := do
    let (n, rest) ← natural.decode bytes
    decodeMany codec n rest

/-- Byte strings, as lists of bytes. -/
def bytes : Codec Bytes := list byte

/-- Optional values: a byte 0, or a byte 1 and the value. -/
def optional (codec : Codec α) : Codec (Option α) where
  encode
    | none => [0]
    | some a => 1 :: codec.encode a
  decode
    | [] => .error .endOfInput
    | b :: rest =>
      if b = 0 then .ok (none, rest)
      else if b = 1 then do
        let (a, rest) ← codec.decode rest
        return (some a, rest)
      else .error .option

/-- Maps: their entries in key order. Reading takes entries in any order; of two values of one key
the later counts. -/
def map {κ : Type} [Ord κ] [Std.TransOrd κ] [Std.LawfulEqOrd κ] (key : Codec κ) (value : Codec α) :
    Codec (SortedMap κ α) :=
  (list (key.pair value)).via (·.entries) fun entries => .ok (SortedMap.ofList entries)

/-! ### What is written is read back -/

theorem restores_via {codec : Codec β} {toWire : α → β} {ofWire : β → Except Fault α} {a : α}
    (h : codec.Restores (toWire a)) (ha : ofWire (toWire a) = .ok a) :
    (codec.via toWire ofWire).Restores a := by
  intro rest
  simp [via, h rest, ha, bind, Except.bind, pure, Except.pure]

theorem restores_pair {first : Codec α} {second : Codec β} {a : α} {b : β}
    (ha : first.Restores a) (hb : second.Restores b) : (first.pair second).Restores (a, b) := by
  intro rest
  simp [pair, List.append_assoc, ha _, hb _, bind, Except.bind, pure, Except.pure]

theorem restores_natural {n : Nat} (h : n < 2 ^ 64) : natural.Restores n := by
  intro rest
  exact Varint.decode_encode rest (by decide) (by omega)

theorem restores_discriminant {n : Nat} (h : n < 2 ^ 32) : discriminant.Restores n := by
  intro rest
  exact Varint.decode_encode rest (by decide) (by omega)

theorem restores_word (w : UInt64) : word.Restores w :=
  restores_via (restores_natural w.toNat_lt) (by rw [UInt64.ofNat_toNat])

theorem unzigzag_zigzag (n : Int) : unzigzag (zigzag n) = n := by
  unfold zigzag unzigzag
  split <;> split <;> omega

theorem restores_integer (n : Int64) : integer.Restores n := by
  have hlo := n.le_toInt
  have hhi := n.toInt_lt
  refine restores_via (restores_natural ?_) ?_
  · unfold zigzag
    split <;> omega
  · rw [unzigzag_zigzag, Int64.ofInt_toInt]

theorem restores_byte (b : UInt8) : byte.Restores b := fun _ => rfl

theorem restores_double (d : Double) : double.Restores d := by
  intro rest
  simp [double, LittleEndian.takeWord64_append]

theorem restores_text {s : String} (h : (Bytes.ofText s).length < 2 ^ 64) : text.Restores s := by
  intro rest
  simp [text, List.append_assoc, restores_natural h _, bind, Except.bind, pure, Except.pure,
    Bytes.text?_ofText]

theorem decodeMany_flatMap {codec : Codec α} {as : List α} (h : ∀ a ∈ as, codec.Restores a)
    (rest : Bytes) : decodeMany codec as.length (as.flatMap codec.encode ++ rest) = .ok (as, rest) := by
  induction as with
  | nil => rfl
  | cons a as ih =>
    have ha := h a (by simp)
    have has := ih fun b hb => h b (by simp [hb])
    simp [decodeMany, List.append_assoc, ha _, has, bind, Except.bind, pure, Except.pure]

theorem restores_list {codec : Codec α} {as : List α} (hlen : as.length < 2 ^ 64)
    (h : ∀ a ∈ as, codec.Restores a) : (list codec).Restores as := by
  intro rest
  simp [list, List.append_assoc, restores_natural hlen _, decodeMany_flatMap h, bind, Except.bind]

theorem restores_bytes {bytes : Bytes} (h : bytes.length < 2 ^ 64) : Codec.bytes.Restores bytes :=
  restores_list h fun b _ => restores_byte b

theorem restores_optional {codec : Codec α} {a : Option α} (h : ∀ b ∈ a, codec.Restores b) :
    (optional codec).Restores a := by
  intro rest
  cases a with
  | none => rfl
  | some a => simp [optional, h a rfl _, bind, Except.bind, pure, Except.pure]

end Codec

end GraphVault.Wire
