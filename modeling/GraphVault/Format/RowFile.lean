import GraphVault.Format.Header

/-!
# Row files

A row file is a header, the number of rows as eight bytes, and the rows one after the other. Rows
are read one at a time, so that a failure names the row it happened at.
-/

namespace GraphVault

/-- A row of an edge bundle: the edge id and the two ends. -/
structure EdgeRow where
  id : Int64
  source : Int64
  destination : Int64
  deriving DecidableEq

namespace RowFile

open Wire (Codec)

/-- Rows of vertex sets are external ids. -/
def vertexRow : Codec Int64 := Codec.integer

/-- Rows of edge bundles. -/
def edgeRow : Codec EdgeRow :=
  (Codec.integer.pair (Codec.integer.pair Codec.integer)).via
    (fun row => (row.id, row.source, row.destination))
    fun (id, source, destination) => .ok ⟨id, source, destination⟩

/-- Rows of columns: what the cell belongs to, and the cell. -/
def cellRow (type : ColumnType) : Codec (Int64 × type.Cell) := Codec.integer.pair type.codec

variable {ρ : Type}

/-- The row file that holds the given rows. -/
def encode (codec : Codec ρ) (rows : List ρ) : Bytes :=
  Header.bytes ++ (LittleEndian.encode 8 rows.length ++ rows.flatMap codec.encode)

/-- Reads `count` rows, of which the first is the row `index` of the file of `guid`. -/
def decodeRows (codec : Codec ρ) (guid : Guid) :
    (count index : Nat) → Bytes → Except Failure (List ρ × Bytes)
  | 0, _, bytes => .ok ([], bytes)
  | count + 1, index, bytes =>
    match codec.decode bytes with
    | .error fault => .error (.malformedRow guid index (.wire fault))
    | .ok (row, rest) => do
      let (rows, rest) ← decodeRows codec guid count (index + 1) rest
      return (row :: rows, rest)

/-- Reads a row file of exactly `expected` rows. -/
def decode (codec : Codec ρ) (guid : Guid) (expected : UInt64) (bytes : Bytes) :
    Except Failure (List ρ) := do
  let body ← Header.strip bytes
  match LittleEndian.takeWord64 body with
  | none => throw (.malformedRow guid 0 .countMissing)
  | some (count, body) =>
    if count ≠ expected then throw (.missingRows guid expected.toNat count.toNat)
    let (rows, rest) ← decodeRows codec guid count.toNat 0 body
    if rest ≠ [] then throw (.malformedRow guid count.toNat (.trailing rest.length))
    return rows

end RowFile

end GraphVault
