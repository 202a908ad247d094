import GraphVault.Json
import GraphVault.Vault

/-!
# Previews

The first rows of an entity as JSON objects, in which external ids stand for positions. A position
that its vertex set does not have shows as null. The vertex sets have to be in memory.
-/

namespace GraphVault.Preview

/-- A cell of a column. -/
def cell : (type : ColumnType) → type.Cell → Json
  | .double, (d : Double) => Json.ofDouble d
  | .string, (s : String) => .text s
  | .pair, ((x, y) : Double × Double) => .list [Json.ofDouble x, Json.ofDouble y]

/-- The external id at a position. -/
def external (set : VertexSet) (position : Nat) : Json :=
  ((set.externalId position).map Json.ofInt64).getD .null

/-- A vertex. -/
def vertexRow (id : Int64) : Json := .object [("id", Json.ofInt64 id)]

/-- An edge between two vertex sets. -/
def edgeRow (source destination : VertexSet) (edge : Edge) : Json :=
  .object [("id", Json.ofInt64 edge.id), ("src", external source edge.source.toNat),
    ("dst", external destination edge.destination.toNat)]

/-- A defined cell and its position. -/
def cellRow (type : ColumnType) (set : VertexSet) (row : Nat × type.Cell) : Json :=
  .object [("id", external set row.1), ("value", cell type row.2)]

/-- The first rows of an entity, no more than `limit`. Undefined cells are left out. -/
def rows (limit : Nat) : Entity → VaultM (List Json)
  | .vertexSet set => return (set.mapping.take limit).map vertexRow
  | .edgeBundle bundle => do
    let source ← Vault.vertexSet bundle.sourceSet
    let destination ← Vault.vertexSet bundle.destinationSet
    return (bundle.edges.take limit).map (edgeRow source destination)
  | .column type column => do
    let set ← Vault.vertexSet column.vertexSet
    return (column.cells.take limit).map (cellRow type set)

end GraphVault.Preview
