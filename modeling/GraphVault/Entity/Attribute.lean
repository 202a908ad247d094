import GraphVault.Entity.Check
import GraphVault.Entity.VertexSet

/-!
# Attribute columns

One cell per position of a vertex set, and a mark whether it is defined. What stands at an undefined
position is a placeholder that does not count as content.
-/

namespace GraphVault

/-- A column of cells over a vertex set. -/
structure Attribute (α : Type) where
  values : List α
  defined : List Bool
  vertexSet : Guid
  deriving DecidableEq

namespace Attribute

variable {α : Type}

/-- A column that is defined everywhere. -/
def dense (vertexSet : Guid) (values : List α) : Attribute α :=
  ⟨values, values.map fun _ => true, vertexSet⟩

/-- A column of optional cells, with a placeholder where there is none. -/
def ofOptions (placeholder : α) (vertexSet : Guid) (values : List (Option α)) : Attribute α :=
  ⟨values.map (·.getD placeholder), values.map (·.isSome), vertexSet⟩

/-- The number of cells. -/
def size (column : Attribute α) : Nat := column.values.length

/-- The cell at a position, if it is defined. -/
def get? (column : Attribute α) (position : Nat) : Option α :=
  match column.defined[position]? with
  | some true => column.values[position]?
  | _ => none

/-- The number of positions marked as defined. -/
def definedCount (column : Attribute α) : Nat := column.defined.count true

/-- The defined cells with their positions. -/
def cells (column : Attribute α) : List (Nat × α) :=
  (column.values.zip column.defined).zipIdx.filterMap fun ((value, isDefined), position) =>
    if isDefined then some (position, value) else none

/-- Accepts a column with one cell and one mark per position. -/
def validate (column : Attribute α) (guid : Guid) (set : VertexSet) : Except Failure Unit := do
  Check.length guid "values" set.size column.values.length
  Check.length guid "defined" set.size column.defined.length

/-- Whether two columns have the same marks and the same defined cells over the same set. -/
def sameContent [DecidableEq α] (column other : Attribute α) : Bool :=
  column.vertexSet = other.vertexSet && column.defined = other.defined
    && column.size = other.size && column.cells = other.cells

end Attribute

end GraphVault
