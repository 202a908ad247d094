import GraphVault.Format.Ordered

/-!
# The unordered layout

The exchange form of data that has no positions yet: rows in any order, keyed by external ids.
Reading assigns positions: vertex sets are sorted by external id, edges by edge id, and the ends of
edges and the cells of columns are placed where the vertex set has their external ids.
-/

namespace GraphVault.Unordered

variable {m : Type → Type} [Monad m] [MonadExceptOf Failure m]

/-- The external id at a position that the set has to have. -/
def external (set : VertexSet) (position : Nat) : Except Failure Int64 :=
  match set.externalId position with
  | some id => .ok id
  | none => .error (.aborted .unmappedPosition)

/-- The row of an edge, in external ids. -/
def edgeRow (source destination : VertexSet) (edge : Edge) : Except Failure EdgeRow := do
  let s ← external source edge.source.toNat
  let d ← external destination edge.destination.toNat
  return ⟨edge.id, s, d⟩

/-- The row of a defined cell, in external ids. -/
def cellRow {α : Type} (set : VertexSet) : Nat × α → Except Failure (Int64 × α)
  | (position, value) => do return (← external set position, value)

/-- Writes an entity. -/
def encode (guid : Guid) (entity : Entity) (resolve : Guid → m VertexSet) : m Stored := do
  match entity with
  | .vertexSet set =>
    return ⟨⟨guid, entity.kind, UInt64.ofNat set.size, []⟩,
      RowFile.encode RowFile.vertexRow set.mapping⟩
  | .edgeBundle bundle =>
    let source ← resolve bundle.sourceSet
    let destination ← resolve bundle.destinationSet
    let rows ← MonadExcept.ofExcept (bundle.edges.mapM (edgeRow source destination))
    return ⟨⟨guid, entity.kind, UInt64.ofNat rows.length,
        [⟨bundle.sourceSet, UInt64.ofNat source.size⟩,
          ⟨bundle.destinationSet, UInt64.ofNat destination.size⟩]⟩,
      RowFile.encode RowFile.edgeRow rows⟩
  | .column type cells =>
    let set ← resolve cells.vertexSet
    let rows ← MonadExcept.ofExcept (cells.cells.mapM (cellRow set))
    return ⟨⟨guid, entity.kind, UInt64.ofNat rows.length,
        [⟨cells.vertexSet, UInt64.ofNat set.size⟩]⟩,
      RowFile.encode (RowFile.cellRow type) rows⟩

/-- The first of two neighbours that are equal. -/
def firstDouble : List Int64 → Option Int64
  | a :: b :: rest => if a = b then some a else firstDouble (b :: rest)
  | _ => none

/-- The vertex set of distinct external ids, in increasing order. -/
def sorted (guid : Guid) (ids : List Int64) : Except Failure VertexSet :=
  let mapping := ids.mergeSort (· ≤ ·)
  match firstDouble mapping with
  | some id => .error (.duplicateExternalId guid id)
  | none => .ok ⟨mapping⟩

/-- The position of an external id that row `row` needs. -/
def locate (guid : Guid) (row : Nat) (set : VertexSet) (id : Int64) : Except Failure Nat :=
  match set.positionOf id with
  | some position => .ok position
  | none => .error (.unknownExternalId guid row id)

/-- The edges of rows that follow `index` others. -/
def edges (guid : Guid) (source destination : VertexSet) :
    Nat → List EdgeRow → Except Failure (List Edge)
  | _, [] => .ok []
  | index, row :: rows => do
    let s ← locate guid index source row.source
    let d ← locate guid index destination row.destination
    return ⟨UInt64.ofNat s, UInt64.ofNat d, row.id⟩
      :: (← edges guid source destination (index + 1) rows)

/-- Defines the cells of rows that follow `index` others. -/
def place {α : Type} (guid : Guid) (set : VertexSet) :
    Nat → Attribute α → List (Int64 × α) → Except Failure (Attribute α)
  | _, column, [] => .ok column
  | index, column, (id, value) :: rows => do
    let position ← locate guid index set id
    if column.defined[position]? = some true then throw (.duplicatePosition guid index position)
    place guid set (index + 1) (column.define position value) rows

/-- Reads the entity that a manifest describes, and assigns positions to it. -/
def decode (stored : Stored) (resolve : Guid → m VertexSet) : m Entity := do
  let manifest := stored.manifest
  let guid := manifest.guid
  match manifest.kind with
  | .vertexSet =>
    let ids ← MonadExcept.ofExcept
      (RowFile.decode RowFile.vertexRow guid manifest.rowCount stored.rows)
    return .vertexSet (← MonadExcept.ofExcept (sorted guid ids))
  | .edgeBundle =>
    let sourceRef ← MonadExcept.ofExcept (manifest.reference 0)
    let destinationRef ← MonadExcept.ofExcept (manifest.reference 1)
    let source ← sourceRef.resolve guid resolve
    let destination ← destinationRef.resolve guid resolve
    let rows ← MonadExcept.ofExcept
      (RowFile.decode RowFile.edgeRow guid manifest.rowCount stored.rows)
    let edges ← MonadExcept.ofExcept (edges guid source destination 0 rows)
    return .edgeBundle (EdgeBundle.ofEdges sourceRef.guid destinationRef.guid
      (edges.mergeSort fun a b => a.id ≤ b.id))
  | .column type =>
    let setRef ← MonadExcept.ofExcept (manifest.reference 0)
    let set ← setRef.resolve guid resolve
    let rows ← MonadExcept.ofExcept
      (RowFile.decode (RowFile.cellRow type) guid manifest.rowCount stored.rows)
    let blank := Attribute.blank type.placeholder set.size setRef.guid
    return .column type (← MonadExcept.ofExcept (place guid set 0 blank rows))

end GraphVault.Unordered
