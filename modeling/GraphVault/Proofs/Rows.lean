import GraphVault.Proofs.StoredForms

/-!
# What is read can be written again

A wire form may be longer than it has to be, so that bytes that are read are not always the ones
that would be written. But every value that a reader accepts is within the limits of its wire form:
written and read again it is the same. Main statement: `RowFile.decode_encode_of_perm`, for the rows
of a file in any order.
-/

namespace GraphVault

open Wire (Codec)

theorem Wire.Varint.lt_of_decode {last more n : Nat} {bytes rest : Bytes} (hlast : last < 128)
    (h : decode last more bytes = .ok (n, rest)) : n < 128 ^ more * (last + 1) := by
  induction more generalizing bytes n rest with
  | zero =>
    cases bytes with
    | nil => cases h
    | cons b bytes =>
      rw [decode] at h
      split at h
      · cases h
        omega
      · cases h
  | succ more ih =>
    have hpos : 0 < 128 ^ more * (last + 1) := Nat.mul_pos (Nat.pow_pos (by decide)) (by omega)
    have hpow : 128 ^ (more + 1) * (last + 1) = 128 * (128 ^ more * (last + 1)) := by
      rw [Nat.pow_succ]
      ac_rfl
    cases bytes with
    | nil => cases h
    | cons b bytes =>
      have hb : b.toNat < 256 := b.toNat_lt
      rw [decode] at h
      split at h
      · cases h
        omega
      · simp only [bind_eq_ok_iff] at h
        obtain ⟨⟨m, rest'⟩, hdecode, h⟩ := h
        have hm := ih hdecode
        cases h
        omega

namespace Wire.Codec

variable {α β : Type}

/-- Whatever a codec reads, it reads back after writing it. -/
def Rereads (codec : Codec α) : Prop :=
  ∀ bytes a rest, codec.decode bytes = .ok (a, rest) → codec.Restores a

theorem rereads_integer : integer.Rereads := fun _ n _ _ => restores_integer n

theorem rereads_double : double.Rereads := fun _ d _ _ => restores_double d

theorem rereads_text : text.Rereads := by
  intro bytes s rest h
  simp only [text, bind_eq_ok_iff] at h
  obtain ⟨⟨n, rest'⟩, hlength, h⟩ := h
  have hn : n < 128 ^ 9 * (1 + 1) := Varint.lt_of_decode (by decide) hlength
  apply restores_text
  split at h
  · cases h
  · split at h
    · rename_i hread
      have htext := congrArg List.length (Bytes.ofText_of_text? hread)
      have htaken := List.length_take_le n rest'
      rw [← htext] at htaken
      cases h
      omega
    · cases h

theorem Rereads.pair {first : Codec α} {second : Codec β} (hfirst : first.Rereads)
    (hsecond : second.Rereads) : (first.pair second).Rereads := by
  intro bytes p rest h
  simp only [Codec.pair, bind_eq_ok_iff] at h
  obtain ⟨⟨a, rest'⟩, ha, ⟨b, rest''⟩, hb, h⟩ := h
  cases h
  exact restores_pair (hfirst _ _ _ ha) (hsecond _ _ _ hb)

end Wire.Codec

/-- A row of an entity of a kind. -/
def Kind.Row : Kind → Type
  | vertexSet => Int64
  | edgeBundle => EdgeRow
  | column type => Int64 × type.Cell

/-- Rows of a kind on the wire. -/
def Kind.rowCodec : (kind : Kind) → Codec kind.Row
  | vertexSet => RowFile.vertexRow
  | edgeBundle => RowFile.edgeRow
  | column type => RowFile.cellRow type

theorem ColumnType.rereads_codec (type : ColumnType) : type.codec.Rereads := by
  cases type with
  | double => exact Codec.rereads_double
  | string => exact Codec.rereads_text
  | pair => exact Codec.rereads_double.pair Codec.rereads_double

theorem Kind.rereads_rowCodec (kind : Kind) : kind.rowCodec.Rereads := by
  cases kind with
  | vertexSet => exact Codec.rereads_integer
  | edgeBundle => exact fun _ row _ _ => RowFile.restores_edgeRow row
  | column type => exact Codec.rereads_integer.pair type.rereads_codec

namespace RowFile

variable {ρ : Type} {codec : Codec ρ} {guid : Guid}

private theorem of_decodeRows (hcodec : codec.Rereads) {count index : Nat} {bytes rest : Bytes}
    {rows : List ρ} (h : decodeRows codec guid count index bytes = .ok (rows, rest)) :
    rows.length = count ∧ ∀ row ∈ rows, codec.Restores row := by
  induction count generalizing index bytes rows with
  | zero =>
    cases h
    exact ⟨rfl, nofun⟩
  | succ count ih =>
    rw [decodeRows] at h
    split at h
    · cases h
    · rename_i row bytes' hrow
      simp only [bind_eq_ok_iff] at h
      obtain ⟨⟨rows', rest'⟩, hrows, h⟩ := h
      cases h
      obtain ⟨hlength, hrestores⟩ := ih hrows
      refine ⟨congrArg Nat.succ hlength, ?_⟩
      intro r hr
      cases List.mem_cons.1 hr with
      | inl heq =>
        rw [heq]
        exact hcodec _ _ _ hrow
      | inr hr => exact hrestores r hr

/-- A file is read as exactly the number of rows that is expected, of which each can be restored. -/
theorem of_decode (hcodec : codec.Rereads) {expected : UInt64} {bytes : Bytes} {rows : List ρ}
    (h : decode codec guid expected bytes = .ok rows) :
    rows.length = expected.toNat ∧ ∀ row ∈ rows, codec.Restores row := by
  simp only [decode, bind_eq_ok_iff] at h
  obtain ⟨body, -, h⟩ := h
  split at h
  · cases h
  · rename_i count body' hword
    split at h
    · cases h
    · rename_i hcount
      simp only [bind_eq_ok_iff] at h
      obtain ⟨⟨rows', rest⟩, hrows, h⟩ := h
      split at h
      · cases h
      · cases h
        rw [← Decidable.not_not.1 hcount]
        exact of_decodeRows hcodec hrows

/-- The rows that were read from a file, written in any order, are read in that order. -/
theorem decode_encode_of_perm (hcodec : codec.Rereads) {expected : UInt64} {bytes : Bytes}
    {rows rows' : List ρ} (h : decode codec guid expected bytes = .ok rows)
    (hperm : rows'.Perm rows) : decode codec guid expected (encode codec rows') = .ok rows' := by
  obtain ⟨hlength, hrestores⟩ := of_decode hcodec h
  have hlength' : rows'.length = expected.toNat := hperm.length_eq.trans hlength
  have hlt : rows'.length < 2 ^ 64 := hlength' ▸ expected.toNat_lt
  have hread := decode_encode hlt (fun row hrow => hrestores row (hperm.mem_iff.1 hrow)) guid
  rw [hlength', UInt64.ofNat_toNat] at hread
  exact hread

end RowFile

end GraphVault
