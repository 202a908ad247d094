import GraphVault.Entity
import GraphVault.Format.Manifest
import GraphVault.Format.RowFile

/-!
# The ordered layout

Rows in the order of positions: a vertex set is its external ids, an edge bundle its edges with the
positions of their ends, and a column its defined cells by increasing position. Reading never pads
or truncates: a position that is negative, too large, repeated or out of order fails the entity.
-/

namespace GraphVault

namespace Attribute

variable {α : Type}

/-- A column of `size` undefined positions. -/
def blank (placeholder : α) (size : Nat) (vertexSet : Guid) : Attribute α :=
  ⟨List.replicate size placeholder, List.replicate size false, vertexSet⟩

/-- The column with a cell defined at a position. -/
def define (column : Attribute α) (position : Nat) (value : α) : Attribute α :=
  { column with
    values := column.values.set position value
    defined := column.defined.set position true }

end Attribute

namespace Ordered

variable {m : Type → Type} [Monad m]

/-- The reference to a vertex set of the size it has now. -/
def reference (guid : Guid) (resolve : Guid → m VertexSet) : m Reference := do
  return ⟨guid, UInt64.ofNat (← resolve guid).size⟩

/-- The row of an edge. -/
def edgeRow (edge : Edge) : EdgeRow := ⟨edge.id, edge.source.toInt64, edge.destination.toInt64⟩

/-- The row of a defined cell. -/
def cellRow {α : Type} : Nat × α → Int64 × α
  | (position, value) => (Int64.ofNat position, value)

/-- Writes an entity. -/
def encode (guid : Guid) (entity : Entity) (resolve : Guid → m VertexSet) : m Stored := do
  match entity with
  | .vertexSet set =>
    return ⟨⟨guid, entity.kind, UInt64.ofNat set.size, []⟩,
      RowFile.encode RowFile.vertexRow set.mapping⟩
  | .edgeBundle bundle =>
    let source ← reference bundle.sourceSet resolve
    let destination ← reference bundle.destinationSet resolve
    return ⟨⟨guid, entity.kind, UInt64.ofNat bundle.size, [source, destination]⟩,
      RowFile.encode RowFile.edgeRow (bundle.edges.map edgeRow)⟩
  | .column type cells =>
    return ⟨⟨guid, entity.kind, UInt64.ofNat cells.definedCount,
        [⟨cells.vertexSet, UInt64.ofNat cells.size⟩]⟩,
      RowFile.encode (RowFile.cellRow type) (cells.cells.map cellRow)⟩

/-- A stored position as an index below `size`. -/
def position (guid : Guid) (field : String) (index : Nat) (stored : Int64) (size : Nat) :
    Except Failure Nat :=
  if 0 ≤ stored.toInt ∧ stored.toInt < size then .ok stored.toInt.toNat
  else .error (.positionOutOfRange guid field index stored.toInt size)

/-- The edges of rows that follow `index` others. -/
def edges (guid : Guid) (source destination : Nat) : Nat → List EdgeRow → Except Failure (List Edge)
  | _, [] => .ok []
  | index, row :: rows => do
    let s ← position guid "src" index row.source source
    let d ← position guid "dst" index row.destination destination
    return ⟨UInt64.ofNat s, UInt64.ofNat d, row.id⟩
      :: (← edges guid source destination (index + 1) rows)

/-- Accepts the position of row `index` behind the one of the row before. -/
def checkOrder (guid : Guid) (index : Nat) (previous : Option Int64) (id : Int64) :
    Except Failure Unit :=
  match previous with
  | none => .ok ()
  | some previous =>
    if id = previous then .error (.duplicatePosition guid index id.toInt)
    else if id < previous then .error (.unsortedPositions guid index id.toInt previous.toInt)
    else .ok ()

/-- Defines the cells of rows that follow `index` others, the last of them at `previous`. -/
def place {α : Type} (guid : Guid) (size : Nat) :
    Nat → Option Int64 → Attribute α → List (Int64 × α) → Except Failure (Attribute α)
  | _, _, column, [] => .ok column
  | index, previous, column, (id, value) :: rows => do
    checkOrder guid index previous id
    let p ← position guid "id" index id size
    place guid size (index + 1) (some id) (column.define p value) rows

variable [MonadExceptOf Failure m]

/-- Reads the entity that a manifest describes. -/
def decode (stored : Stored) (resolve : Guid → m VertexSet) : m Entity := do
  let manifest := stored.manifest
  let guid := manifest.guid
  match manifest.kind with
  | .vertexSet =>
    let mapping ← MonadExcept.ofExcept
      (RowFile.decode RowFile.vertexRow guid manifest.rowCount stored.rows)
    return .vertexSet ⟨mapping⟩
  | .edgeBundle =>
    let sourceRef ← MonadExcept.ofExcept (manifest.reference 0)
    let destinationRef ← MonadExcept.ofExcept (manifest.reference 1)
    let source ← sourceRef.resolve guid resolve
    let destination ← destinationRef.resolve guid resolve
    let rows ← MonadExcept.ofExcept
      (RowFile.decode RowFile.edgeRow guid manifest.rowCount stored.rows)
    let edges ← MonadExcept.ofExcept (edges guid source.size destination.size 0 rows)
    return .edgeBundle (EdgeBundle.ofEdges sourceRef.guid destinationRef.guid edges)
  | .column type =>
    let setRef ← MonadExcept.ofExcept (manifest.reference 0)
    let set ← setRef.resolve guid resolve
    let rows ← MonadExcept.ofExcept
      (RowFile.decode (RowFile.cellRow type) guid manifest.rowCount stored.rows)
    let blank := Attribute.blank type.placeholder set.size setRef.guid
    let cells ← MonadExcept.ofExcept (place guid set.size 0 none blank rows)
    return .column type cells

end Ordered

end GraphVault
