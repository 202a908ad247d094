import GraphVault.Proofs.Content
import GraphVault.Proofs.Rows

/-!
# Row files delimit themselves

Where a row ends can be told from its bytes, and how many rows there are stands in front of them. So
a row file is read with the number of rows that it holds and with no other; cut off among its rows
it is refused at the row that the cut goes through, and continued it is refused behind its last row
(`RowFile.decode_exact`). Two lists of rows have the same file only if they are the same
(`RowFile.encode_injective`).
-/

namespace GraphVault

open Wire (Codec)

theorem Wire.Varint.decode_take {last more n size : Nat} (h : size < (encode more n).length) :
    decode last more ((encode more n).take size) = .error .endOfInput := by
  induction more generalizing n size with
  | zero =>
    have hsize : size = 0 := Nat.lt_one_iff.1 h
    rw [hsize, List.take_zero]
    rfl
  | succ more ih =>
    cases size with
    | zero => rfl
    | succ size =>
      by_cases hn : n < 128
      · rw [encode, if_pos hn] at h
        exact absurd h (by simp)
      · rw [encode, if_neg hn, List.length_cons, Nat.succ_lt_succ_iff] at h
        have hbyte : ¬ (UInt8.ofNat (128 + n % 128)).toNat < 128 := by
          rw [toNat_ofNat (by omega)]
          omega
        rw [encode, if_neg hn, List.take_succ_cons, decode, if_neg hbyte, ih h]
        rfl

namespace Wire.Codec

variable {α β : Type}

/-- A wire form that is cut off, wherever that is, is refused because the bytes end. -/
def Delimits (codec : Codec α) (a : α) : Prop :=
  ∀ size < (codec.encode a).length, codec.decode ((codec.encode a).take size) = .error .endOfInput

theorem delimits_via {codec : Codec β} {toWire : α → β} {ofWire : β → Except Fault α} {a : α}
    (h : codec.Delimits (toWire a)) : (codec.via toWire ofWire).Delimits a := by
  intro size hsize
  have hdecode := h size hsize
  simp only [via, hdecode, bind, Except.bind]

theorem delimits_pair {first : Codec α} {second : Codec β} {a : α} {b : β}
    (hrestores : first.Restores a) (ha : first.Delimits a) (hb : second.Delimits b) :
    (first.pair second).Delimits (a, b) := by
  intro size hsize
  simp only [pair, List.length_append] at hsize ⊢
  by_cases hcut : size < (first.encode a).length
  · rw [List.take_append_of_le_length (Nat.le_of_lt hcut), ha size hcut]
    rfl
  · have hle := Nat.le_of_not_lt hcut
    rw [List.take_append, List.take_of_length_le hle, hrestores]
    simp only [bind, Except.bind]
    rw [hb _ (by omega)]

theorem delimits_natural (n : Nat) : natural.Delimits n := fun _ => Varint.decode_take

theorem delimits_integer (n : Int64) : integer.Delimits n := delimits_via (delimits_natural _)

theorem delimits_double (d : Double) : double.Delimits d := by
  intro size hsize
  have hlength : (LittleEndian.word64 d.bits).length = 8 := LittleEndian.length_encode 8 _
  have hshort : ((LittleEndian.word64 d.bits).take size).length < 8 := by
    rw [List.length_take]
    exact Nat.lt_of_le_of_lt (Nat.min_le_left _ _) (hlength ▸ hsize)
  simp only [double, LittleEndian.takeWord64, if_pos hshort]

theorem delimits_text {s : String} (h : (Bytes.ofText s).length < 2 ^ 64) : text.Delimits s := by
  intro size hsize
  simp only [text, List.length_append] at hsize ⊢
  by_cases hcut : size < (natural.encode (Bytes.ofText s).length).length
  · rw [List.take_append_of_le_length (Nat.le_of_lt hcut), delimits_natural _ size hcut]
    rfl
  · -- the length is there, but not all of the bytes that it announces
    have hle := Nat.le_of_not_lt hcut
    have hshort : ((Bytes.ofText s).take
        (size - (natural.encode (Bytes.ofText s).length).length)).length
          < (Bytes.ofText s).length := by
      rw [List.length_take]
      omega
    rw [List.take_append, List.take_of_length_le hle, restores_natural h]
    simp only [bind, Except.bind, if_pos hshort]
    rfl

end Wire.Codec

theorem ColumnType.delimits_codec {type : ColumnType} {cell : type.Cell}
    (h : type.textBytes cell < 2 ^ 64) : type.codec.Delimits cell := by
  cases type with
  | double => exact Codec.delimits_double cell
  | string =>
    have hlen : (Bytes.ofText cell).length = String.utf8ByteSize cell := Bytes.length_ofText cell
    exact Codec.delimits_text (hlen ▸ h)
  | pair =>
    exact Codec.delimits_pair (Codec.restores_double _) (Codec.delimits_double _)
      (Codec.delimits_double _)

theorem RowFile.delimits_edgeRow (row : EdgeRow) : edgeRow.Delimits row := by
  refine Codec.delimits_via ?_
  refine Codec.delimits_pair (Codec.restores_integer _) (Codec.delimits_integer _) ?_
  refine Codec.delimits_pair (Codec.restores_integer _) (Codec.delimits_integer _) ?_
  exact Codec.delimits_integer _

/-- How many bytes a text has that a row holds. -/
def Kind.textBytes : (kind : Kind) → kind.Row → Nat
  | vertexSet, _ => 0
  | edgeBundle, _ => 0
  | column type, row => type.textBytes row.2

theorem Kind.restores_rowCodec {kind : Kind} {row : kind.Row} (h : kind.textBytes row < 2 ^ 64) :
    kind.rowCodec.Restores row := by
  cases kind with
  | vertexSet => exact Codec.restores_integer row
  | edgeBundle => exact RowFile.restores_edgeRow row
  | column type => exact RowFile.restores_cellRow h

theorem Kind.delimits_rowCodec {kind : Kind} {row : kind.Row} (h : kind.textBytes row < 2 ^ 64) :
    kind.rowCodec.Delimits row := by
  cases kind with
  | vertexSet => exact Codec.delimits_integer row
  | edgeBundle => exact RowFile.delimits_edgeRow row
  | column type =>
    exact Codec.delimits_pair (Codec.restores_integer _) (Codec.delimits_integer _)
      (ColumnType.delimits_codec h)

namespace RowFile

/-- The number of the rows and the lengths of their texts fit into the 64-bit words that they are
written as. All rows do that have room in a memory with 64-bit addresses. -/
structure Writable {kind : Kind} (rows : List kind.Row) : Prop where
  length_lt : rows.length < 2 ^ 64
  text_lt : ∀ row ∈ rows, kind.textBytes row < 2 ^ 64

variable {ρ : Type} {codec : Codec ρ} {guid : Guid}

/-- Where the first row of a file begins: behind the header and the number of rows. -/
def rowsStart : Nat := Header.bytes.length + 8

/-- How many of the rows lie wholly in the first `size` bytes, where the first one begins at
`start`. -/
def wholeRows (codec : Codec ρ) (start : Nat) (rows : List ρ) (size : Nat) : Nat :=
  (List.range rows.length).countP fun index =>
    start + ((rows.take (index + 1)).flatMap codec.encode).length ≤ size

theorem wholeRows_cons (start : Nat) (row : ρ) (rows : List ρ) (size : Nat) :
    wholeRows codec start (row :: rows) size =
      if start + (codec.encode row).length ≤ size then
        wholeRows codec (start + (codec.encode row).length) rows size + 1
      else 0 := by
  have hcount : wholeRows codec start (row :: rows) size
      = wholeRows codec (start + (codec.encode row).length) rows size
        + if start + (codec.encode row).length ≤ size then 1 else 0 := by
    simp only [wholeRows, List.length_cons, List.range_succ_eq_map, List.countP_cons,
      List.countP_map, Function.comp_def, List.take_succ_cons, List.take_zero, List.flatMap_cons,
      List.flatMap_nil, List.length_append, List.length_nil, Nat.add_zero, Nat.add_assoc,
      Nat.succ_eq_add_one, decide_eq_true_iff]
  rw [hcount]
  split
  · rfl
  · -- where the first row is cut off, none of the others is there
    rename_i hcut
    rw [Nat.add_zero, wholeRows, List.countP_eq_zero]
    intro index _
    rw [decide_eq_true_iff]
    omega

theorem decodeRows_take {rows : List ρ}
    (h : ∀ row ∈ rows, codec.Restores row ∧ codec.Delimits row) {start size : Nat}
    (hstart : start ≤ size) (hsize : size < start + (rows.flatMap codec.encode).length)
    (index : Nat) :
    decodeRows codec guid rows.length index ((rows.flatMap codec.encode).take (size - start))
      = .error (.malformedRow guid (index + wholeRows codec start rows size)
          (.wire .endOfInput)) := by
  induction rows generalizing start index with
  | nil =>
    rw [List.flatMap_nil, List.length_nil] at hsize
    omega
  | cons row rows ih =>
    obtain ⟨hrestores, hdelimits⟩ := h row List.mem_cons_self
    rw [List.flatMap_cons, List.length_append] at hsize
    rw [List.flatMap_cons, List.length_cons, decodeRows, wholeRows_cons]
    by_cases hwhole : start + (codec.encode row).length ≤ size
    · -- the first row is there, the cut goes through one of the others
      have hrest := ih (fun r hr => h r (List.mem_cons_of_mem _ hr)) hwhole (by omega) (index + 1)
      have hle : (codec.encode row).length ≤ size - start := by omega
      rw [List.take_append, List.take_of_length_le hle, hrestores, Nat.sub_sub, if_pos hwhole]
      simp only [hrest, bind, Except.bind, Nat.add_assoc, Nat.add_comm 1]
    · have hlt : size - start < (codec.encode row).length := by omega
      rw [List.take_append_of_le_length (Nat.le_of_lt hlt), hdelimits _ hlt, if_neg hwhole]
      rfl

/-- A file is read for the number of rows that stands in front of them. -/
theorem decode_counted {count : Nat} (hcount : count < 2 ^ 64) (expected : UInt64)
    (body : Bytes) :
    decode codec guid expected (Header.bytes ++ (LittleEndian.encode 8 count ++ body)) =
      if expected.toNat = count then do
        let (rows, rest) ← decodeRows codec guid count 0 body
        if rest ≠ [] then throw (.malformedRow guid count (.trailing rest.length))
        return rows
      else .error (.missingRows guid expected.toNat count) := by
  have hto : (UInt64.ofNat count).toNat = count := UInt64.toNat_ofNat_of_lt' hcount
  have hword : LittleEndian.encode 8 count = LittleEndian.word64 (UInt64.ofNat count) := by
    rw [LittleEndian.word64, hto]
  have heq : UInt64.ofNat count = expected ↔ expected.toNat = count := by
    rw [← UInt64.toNat_inj, hto, eq_comm]
  rw [decode, Header.strip_append, hword]
  simp only [bind, Except.bind, LittleEndian.takeWord64_append, hto, ne_eq, heq]
  by_cases h : expected.toNat = count
  · rw [if_neg (not_not_intro h), if_pos h]
  · rw [if_pos h, if_neg h]
    rfl

section File

variable {rows : List ρ}

theorem decode_miscounted (hlen : rows.length < 2 ^ 64) {expected : UInt64}
    (h : expected.toNat ≠ rows.length) :
    decode codec guid expected (encode codec rows)
      = .error (.missingRows guid expected.toNat rows.length) := by
  rw [encode, decode_counted hlen, if_neg h]

theorem decode_append (hlen : rows.length < 2 ^ 64) (h : ∀ row ∈ rows, codec.Restores row)
    {suffix : Bytes} (hsuffix : suffix ≠ []) :
    decode codec guid (UInt64.ofNat rows.length) (encode codec rows ++ suffix)
      = .error (.malformedRow guid rows.length (.trailing suffix.length)) := by
  rw [encode, List.append_assoc, List.append_assoc, decode_counted hlen,
    if_pos (UInt64.toNat_ofNat_of_lt' hlen), decodeRows_flatMap h]
  simp only [bind, Except.bind, ne_eq, hsuffix]
  rfl

theorem decode_take (hlen : rows.length < 2 ^ 64)
    (h : ∀ row ∈ rows, codec.Restores row ∧ codec.Delimits row) {size : Nat}
    (hstart : rowsStart ≤ size) (hsize : size < (encode codec rows).length) :
    decode codec guid (UInt64.ofNat rows.length) ((encode codec rows).take size)
      = .error (.malformedRow guid (wholeRows codec rowsStart rows size) (.wire .endOfInput)) := by
  have hfront : (encode codec rows).take size = Header.bytes ++ (LittleEndian.encode 8 rows.length
      ++ (rows.flatMap codec.encode).take (size - rowsStart)) := by
    have hheader : Header.bytes.length ≤ size := Nat.le_trans (Nat.le_add_right _ _) hstart
    have hcount : (LittleEndian.encode 8 rows.length).length ≤ size - Header.bytes.length := by
      rw [LittleEndian.length_encode]
      exact Nat.le_sub_of_add_le' hstart
    rw [encode, List.take_append, List.take_of_length_le hheader, List.take_append,
      List.take_of_length_le hcount, LittleEndian.length_encode, Nat.sub_sub, rowsStart]
  have hsize' : size < rowsStart + (rows.flatMap codec.encode).length := by
    rw [encode, List.length_append, List.length_append, LittleEndian.length_encode] at hsize
    rw [rowsStart]
    omega
  rw [hfront, decode_counted hlen, if_pos (UInt64.toNat_ofNat_of_lt' hlen),
    decodeRows_take h hstart hsize', Nat.zero_add]
  rfl

/-- A file is that of one list of rows. -/
theorem encode_injective {rows' : List ρ} (hlen : rows.length < 2 ^ 64)
    (hlen' : rows'.length < 2 ^ 64) (h : ∀ row ∈ rows, codec.Restores row)
    (h' : ∀ row ∈ rows', codec.Restores row) (heq : encode codec rows = encode codec rows') :
    rows = rows' := by
  have hread := decode_encode hlen h (Guid.filled 0)
  have hcount : (UInt64.ofNat rows.length).toNat = rows.length := UInt64.toNat_ofNat_of_lt' hlen
  by_cases hlength : rows.length = rows'.length
  · rw [heq, hlength, decode_encode hlen' h'] at hread
    exact (Except.ok.inj hread).symm
  · rw [heq, decode_miscounted hlen' (by rwa [hcount])] at hread
    cases hread

end File

/-- The rows of a file are read back with their number. With any other number, from what is left of
a file that is cut off among its rows, and from a file that is continued, nothing is read, and the
failure says what is wrong: the two numbers, the row that is cut off, or the bytes behind the last
row. -/
theorem decode_exact {kind : Kind} {rows : List kind.Row} (h : Writable rows) (guid : Guid) :
    decode kind.rowCodec guid (UInt64.ofNat rows.length) (encode kind.rowCodec rows) = .ok rows ∧
      (∀ expected : UInt64, expected.toNat ≠ rows.length →
        decode kind.rowCodec guid expected (encode kind.rowCodec rows)
          = .error (.missingRows guid expected.toNat rows.length)) ∧
      (∀ part, part <+: encode kind.rowCodec rows → part ≠ encode kind.rowCodec rows →
        rowsStart ≤ part.length →
        decode kind.rowCodec guid (UInt64.ofNat rows.length) part = .error (.malformedRow guid
          (wholeRows kind.rowCodec rowsStart rows part.length) (.wire .endOfInput))) ∧
      ∀ suffix, suffix ≠ [] →
        decode kind.rowCodec guid (UInt64.ofNat rows.length) (encode kind.rowCodec rows ++ suffix)
          = .error (.malformedRow guid rows.length (.trailing suffix.length)) := by
  have hlen := h.length_lt
  have hrestores : ∀ row ∈ rows, kind.rowCodec.Restores row := fun row hrow =>
    Kind.restores_rowCodec (h.text_lt row hrow)
  have hdelimits : ∀ row ∈ rows, kind.rowCodec.Restores row ∧ kind.rowCodec.Delimits row :=
    fun row hrow => ⟨hrestores row hrow, Kind.delimits_rowCodec (h.text_lt row hrow)⟩
  refine ⟨decode_encode hlen hrestores guid, fun expected hne => decode_miscounted hlen hne, ?_,
    fun suffix hsuffix => decode_append hlen hrestores hsuffix⟩
  intro part hpart hne hstart
  have hlt : part.length < (encode kind.rowCodec rows).length :=
    Nat.lt_of_le_of_ne hpart.length_le fun heq => hne (hpart.eq_of_length heq)
  have htake := List.prefix_iff_eq_take.1 hpart
  have hdecode : decode kind.rowCodec guid _ _ = _ := decode_take hlen hdelimits hstart hlt
  rwa [← htake] at hdecode

/-- Two rows with texts, of which the second one is cut off before its length. -/
theorem decode_exact_texts :
    let rows : List (Kind.column .string).Row := [(7, "ab"), (-1, "")]
    let guid := Guid.filled 1
    let file : Bytes := [0x53, 0x50, 0x48, 0x58, 1, 2, 0, 0, 0, 0, 0, 0, 0, 14, 2, 97, 98, 1, 0]
    encode (Kind.column .string).rowCodec rows = file ∧
      decode (Kind.column .string).rowCodec guid 2 file = .ok rows ∧
      decode (Kind.column .string).rowCodec guid 3 file = .error (.missingRows guid 3 2) ∧
      decode (Kind.column .string).rowCodec guid 2 (file.take 18)
        = .error (.malformedRow guid 1 (.wire .endOfInput)) ∧
      decode (Kind.column .string).rowCodec guid 2 (file ++ [0])
        = .error (.malformedRow guid 2 (.trailing 1)) := by
  intro rows guid file
  have hwritable : Writable rows := ⟨by decide, by decide⟩
  have hfile : encode (Kind.column .string).rowCodec rows = file := by decide
  obtain ⟨hread, hcount, hcut, hsuffix⟩ := decode_exact hwritable guid
  rw [hfile] at hread hcount hcut hsuffix
  refine ⟨hfile, hread, hcount 3 (by decide), ?_, hsuffix [0] (by decide)⟩
  exact hcut (file.take 18) (List.take_prefix _ _) (by decide) (by decide)

end RowFile

end GraphVault
