import GraphVault.Catalog.Entry
import GraphVault.Entity
import GraphVault.Format.Manifest
import GraphVault.Format.RowFile
import GraphVault.Proofs.Yields

/-!
# Stored forms are read back

Manifests, row files and catalog records hold what was written into them, as far as the counts and
lengths in them fit into the words that they are written as.
-/

namespace GraphVault

open Wire (Codec)

@[simp] theorem Bytes.length_ofText (s : String) : (ofText s).length = s.utf8ByteSize :=
  Array.length_toList

namespace Guid

private theorem utf8Size_digit {n : Nat} (h : n < 16) : (Hex.digit n).utf8Size = 1 := by
  rcases n with _ | _ | _ | _ | _ | _ | _ | _ | _ | _ | _ | _ | _ | _ | _ | _ | n
  all_goals first | rfl | omega

private theorem size_utf8Encode_cons (c : Char) (cs : List Char) :
    (c :: cs).utf8Encode.size = c.utf8Size + cs.utf8Encode.size := by
  rw [List.utf8Encode_cons, ByteArray.size_append, List.utf8Encode_singleton,
    List.size_toByteArray, String.length_utf8EncodeChar]

private theorem size_utf8Encode_hex (bytes : Bytes) :
    (Hex.encode bytes).utf8Encode.size = 2 * bytes.length := by
  induction bytes with
  | nil => rfl
  | cons b rest ih =>
    have hb : b.toNat < 256 := b.toNat_lt
    have hhi := utf8Size_digit (n := b.toNat / 16) (by omega)
    have hlo := utf8Size_digit (n := b.toNat % 16) (by omega)
    rw [Hex.encode, size_utf8Encode_cons, size_utf8Encode_cons, hhi, hlo, ih, List.length_cons]
    omega

@[simp] theorem utf8ByteSize_text (g : Guid) : g.text.utf8ByteSize = 64 := by
  rw [← String.size_toByteArray, text, String.toByteArray_ofList, size_utf8Encode_hex,
    g.length_bytes]

theorem length_ofText_text (g : Guid) : (Bytes.ofText g.text).length = 64 := by
  rw [Bytes.length_ofText, utf8ByteSize_text]

theorem text_injective {g h : Guid} (heq : g.text = h.text) : g = h := by
  have hparse := parse?_text g
  rw [heq, parse?_text, Option.some.injEq] at hparse
  exact hparse.symm

theorem restores_codec (g : Guid) : codec.Restores g := by
  refine Codec.restores_via (Codec.restores_text ?_) ?_
  · rw [length_ofText_text]
    decide
  · rw [parse?_text]

end Guid

theorem Wire.Codec.Restores.read_encode {α : Type} {codec : Codec α} {a : α}
    (h : codec.Restores a) : codec.read (codec.encode a) = .ok a := by
  have hdecode := h []
  rw [List.append_nil] at hdecode
  rw [Codec.read, hdecode]
  rfl

theorem Reference.restores_codec (r : Reference) : Reference.codec.Restores r :=
  Codec.restores_via (Codec.restores_pair (Guid.restores_codec _) (Codec.restores_word _)) rfl

theorem Catalog.Entry.restores_codec (e : Catalog.Entry) : Catalog.Entry.codec.Restores e := by
  refine Codec.restores_via ?_ rfl
  refine Codec.restores_pair (Guid.restores_codec _) ?_
  refine Codec.restores_pair (Kind.restores_codec _) ?_
  refine Codec.restores_pair (Codec.restores_word _) ?_
  exact Codec.restores_optional fun g _ => Guid.restores_codec g

/-! ### Lengths -/

theorem Wire.Varint.length_encode_le (more n : Nat) : (encode more n).length ≤ more + 1 := by
  induction more generalizing n with
  | zero => exact Nat.le_refl 1
  | succ more ih =>
    rw [encode]
    split
    · simp
    · rw [List.length_cons]
      exact Nat.succ_le_succ (ih _)

theorem Wire.Varint.length_rest_le {last more n : Nat} {bytes rest : Bytes}
    (h : decode last more bytes = .ok (n, rest)) : rest.length ≤ bytes.length := by
  induction more generalizing bytes n with
  | zero =>
    cases bytes with
    | nil => cases h
    | cons b bytes =>
      rw [decode] at h
      split at h
      · cases h
        exact Nat.le_succ _
      · cases h
  | succ more ih =>
    cases bytes with
    | nil => cases h
    | cons b bytes =>
      rw [decode] at h
      split at h
      · cases h
        exact Nat.le_succ _
      · simp only [bind_eq_ok_iff] at h
        obtain ⟨⟨m, rest'⟩, hdecode, h⟩ := h
        cases h
        exact Nat.le_succ_of_le (ih hdecode)

theorem Wire.Codec.length_le_of_read_text {s : String} {bytes : Bytes}
    (h : text.read bytes = .ok s) : s.utf8ByteSize ≤ bytes.length := by
  unfold read at h
  cases hdecode : text.decode bytes with
  | error fault =>
    rw [hdecode] at h
    cases h
  | ok found =>
    obtain ⟨s', rest⟩ := found
    rw [hdecode] at h
    have heq : s' = s := Except.ok.inj h
    subst heq
    simp only [text, bind_eq_ok_iff] at hdecode
    obtain ⟨⟨n, rest'⟩, hlength, hdecode⟩ := hdecode
    have hrest := Varint.length_rest_le hlength
    split at hdecode
    · cases hdecode
    · split at hdecode
      · rename_i hread
        have htext := congrArg List.length (Bytes.ofText_of_text? hread)
        rw [Bytes.length_ofText, List.length_take] at htext
        have htaken : min n rest'.length ≤ rest'.length := Nat.min_le_right _ _
        cases hdecode
        exact Nat.le_trans (Nat.le_trans (Nat.le_of_eq htext) htaken) hrest
      · cases hdecode

theorem Guid.length_encode_le (g : Guid) : (codec.encode g).length ≤ 74 := by
  have hcount := Wire.Varint.length_encode_le 9 (Bytes.ofText g.text).length
  have hlength : (codec.encode g).length
      = (Wire.Varint.encode 9 (Bytes.ofText g.text).length).length + (Bytes.ofText g.text).length :=
    List.length_append
  rw [g.length_ofText_text] at hcount hlength
  omega

theorem Reference.length_encode_le (r : Reference) : (codec.encode r).length ≤ 84 := by
  have hguid := r.guid.length_encode_le
  have hsize := Wire.Varint.length_encode_le 9 r.size.toNat
  have hlength : (codec.encode r).length
      = (Guid.codec.encode r.guid).length + (Wire.Varint.encode 9 r.size.toNat).length :=
    List.length_append
  omega

namespace Manifest

private theorem length_encode (manifest : Manifest) :
    manifest.encode.length = 5 + ((Guid.codec.encode manifest.guid).length
      + ((Wire.Varint.encode 4 manifest.kind.number).length
        + ((Wire.Varint.encode 9 manifest.rowCount.toNat).length
          + ((Wire.Varint.encode 9 manifest.references.length).length
            + (manifest.references.flatMap Reference.codec.encode).length)))) := by
  simp only [encode, codec, Wire.Codec.via, Wire.Codec.pair, Wire.Codec.list, Kind.codec,
    Wire.Codec.discriminant, Wire.Codec.word, Wire.Codec.natural, List.length_append]
  rfl

/-- A manifest takes more bytes than it has references. -/
theorem references_le_length_encode (manifest : Manifest) :
    manifest.references.length ≤ manifest.encode.length := by
  have hreferences : manifest.references.length
      ≤ (manifest.references.flatMap Reference.codec.encode).length := by
    induction manifest.references with
    | nil => exact Nat.zero_le _
    | cons r references ih =>
      have htext := r.guid.length_ofText_text
      have hr : (Reference.codec.encode r).length
          = (Wire.Varint.encode 9 (Bytes.ofText r.guid.text).length).length
            + (Bytes.ofText r.guid.text).length + (Wire.Varint.encode 9 r.size.toNat).length := by
        rw [← List.length_append, ← List.length_append]
        rfl
      rw [List.flatMap_cons, List.length_append, List.length_cons]
      omega
  have hlength := manifest.length_encode
  omega

/-- Manifests are short. -/
theorem length_encode_le (manifest : Manifest) :
    manifest.encode.length ≤ 104 + 84 * manifest.references.length := by
  have hguid := manifest.guid.length_encode_le
  have hkind := Wire.Varint.length_encode_le 4 manifest.kind.number
  have hrows := Wire.Varint.length_encode_le 9 manifest.rowCount.toNat
  have hcount := Wire.Varint.length_encode_le 9 manifest.references.length
  have hreferences : (manifest.references.flatMap Reference.codec.encode).length
      ≤ 84 * manifest.references.length := by
    induction manifest.references with
    | nil => exact Nat.zero_le _
    | cons r references ih =>
      have hr := r.length_encode_le
      rw [List.flatMap_cons, List.length_append, List.length_cons]
      omega
  have hlength := manifest.length_encode
  omega

theorem restores_codec {manifest : Manifest} (h : manifest.references.length < 2 ^ 64) :
    codec.Restores manifest := by
  refine Codec.restores_via ?_ rfl
  refine Codec.restores_pair (Guid.restores_codec _) ?_
  refine Codec.restores_pair (Kind.restores_codec _) ?_
  refine Codec.restores_pair (Codec.restores_word _) ?_
  exact Codec.restores_list h fun r _ => r.restores_codec

/-- A manifest file is read back for the guid that it describes, unless it counts too many rows. -/
theorem decode_encode {manifest : Manifest} (h : manifest.references.length < 2 ^ 64) :
    decode manifest.encode manifest.guid =
      if maxRows < manifest.rowCount.toNat then
        .error (.serialization (.rowCount manifest.rowCount.toNat maxRows))
      else .ok manifest := by
  have hread := (restores_codec h).read_encode
  rw [decode, encode, Header.strip_append]
  simp only [bind, Except.bind, hread]
  by_cases hcount : maxRows < manifest.rowCount.toNat
  · simp [hcount, throw, throwThe, MonadExceptOf.throw]
  · simp [hcount, pure, Except.pure]

end Manifest

namespace ColumnType

/-- How many bytes a cell has that is a text. -/
def textBytes : (type : ColumnType) → type.Cell → Nat
  | .string, (cell : String) => cell.utf8ByteSize
  | _, _ => 0

theorem restores_codec {type : ColumnType} {cell : type.Cell} (h : type.textBytes cell < 2 ^ 64) :
    type.codec.Restores cell := by
  cases type with
  | double => exact Codec.restores_double cell
  | string =>
    have hlen : (Bytes.ofText cell).length = String.utf8ByteSize cell := Bytes.length_ofText cell
    exact Codec.restores_text (hlen ▸ h)
  | pair => exact Codec.restores_pair (Codec.restores_double _) (Codec.restores_double _)

/-- A text is no longer than the bytes that it is read from. -/
theorem textBytes_le_of_read {type : ColumnType} {cell : type.Cell} {bytes : Bytes}
    (h : type.codec.read bytes = .ok cell) : type.textBytes cell ≤ bytes.length := by
  cases type with
  | double => exact Nat.zero_le _
  | string => exact Wire.Codec.length_le_of_read_text h
  | pair => exact Nat.zero_le _

end ColumnType

namespace RowFile

variable {ρ : Type}

theorem restores_edgeRow (row : EdgeRow) : edgeRow.Restores row := by
  refine Codec.restores_via ?_ rfl
  refine Codec.restores_pair (Codec.restores_integer _) ?_
  exact Codec.restores_pair (Codec.restores_integer _) (Codec.restores_integer _)

theorem restores_cellRow {type : ColumnType} {row : Int64 × type.Cell}
    (h : type.textBytes row.2 < 2 ^ 64) : (cellRow type).Restores row :=
  Codec.restores_pair (Codec.restores_integer _) (ColumnType.restores_codec h)

theorem decodeRows_flatMap {codec : Codec ρ} {rows : List ρ}
    (h : ∀ row ∈ rows, codec.Restores row) (guid : Guid) (index : Nat) (rest : Bytes) :
    decodeRows codec guid rows.length index (rows.flatMap codec.encode ++ rest)
      = .ok (rows, rest) := by
  induction rows generalizing index with
  | nil => rfl
  | cons row rows ih =>
    have hrow := h row (by simp)
    have hrows := ih (fun r hr => h r (by simp [hr])) (index + 1)
    rw [List.flatMap_cons, List.length_cons, List.append_assoc, decodeRows, hrow]
    simp [hrows, bind, Except.bind, pure, Except.pure]

/-- A row file is read back with the number of rows that was written. -/
theorem decode_encode {codec : Codec ρ} {rows : List ρ} (hlen : rows.length < 2 ^ 64)
    (h : ∀ row ∈ rows, codec.Restores row) (guid : Guid) :
    decode codec guid (UInt64.ofNat rows.length) (encode codec rows) = .ok rows := by
  have hcount : (UInt64.ofNat rows.length).toNat = rows.length :=
    UInt64.toNat_ofNat_of_lt' hlen
  have hword : LittleEndian.encode 8 rows.length
      = LittleEndian.word64 (UInt64.ofNat rows.length) := by
    rw [LittleEndian.word64, hcount]
  have hrows := decodeRows_flatMap h guid 0 []
  rw [List.append_nil] at hrows
  rw [decode, encode, Header.strip_append, hword]
  simp only [bind, Except.bind, LittleEndian.takeWord64_append]
  simp [hcount, hrows, pure, Except.pure]

/-- A row file is at least as long as any text in it. -/
theorem textBytes_le {type : ColumnType} {rows : List (Int64 × type.Cell)} {row : Int64 × type.Cell}
    (h : row ∈ rows) : type.textBytes row.2 ≤ (encode (cellRow type) rows).length := by
  have htext : type.textBytes row.2 ≤ (type.codec.encode row.2).length := by
    cases type with
    | double => exact Nat.zero_le _
    | string =>
      have hlength : (ColumnType.string.codec.encode row.2).length
          = (Wire.Varint.encode 9 (Bytes.ofText row.2).length).length
            + (Bytes.ofText row.2).length := List.length_append
      have hbytes : (Bytes.ofText row.2).length = String.utf8ByteSize row.2 := Bytes.length_ofText _
      rw [hlength, hbytes]
      exact Nat.le_add_left _ _
    | pair => exact Nat.zero_le _
  have hcell : (type.codec.encode row.2).length ≤ ((cellRow type).encode row).length := by
    have hlength : ((cellRow type).encode row).length
        = (Codec.integer.encode row.1).length + (type.codec.encode row.2).length :=
      List.length_append
    omega
  have hrow : ((cellRow type).encode row).length ≤ (rows.flatMap (cellRow type).encode).length := by
    obtain ⟨front, back, rfl⟩ := List.append_of_mem h
    simp only [List.flatMap_append, List.flatMap_cons, List.length_append]
    omega
  have hfile : (rows.flatMap (cellRow type).encode).length ≤ (encode (cellRow type) rows).length := by
    simp only [encode, List.length_append]
    omega
  omega

end RowFile

end GraphVault
