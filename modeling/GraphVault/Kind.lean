import GraphVault.Wire.Codec

/-!
# Entity kinds

The closed set of kinds of entities: vertex sets, edge bundles, and attribute columns whose cells
are doubles, texts or pairs of doubles.
-/

namespace GraphVault

/-- What the cells of an attribute column are. -/
inductive ColumnType where
  | double
  | string
  | pair
  deriving DecidableEq, Repr

namespace ColumnType

/-- The cells of a column type. -/
def Cell : ColumnType → Type
  | double => Double
  | string => String
  | pair => Double × Double

/-- Cells are compared bit by bit. -/
instance : (type : ColumnType) → DecidableEq type.Cell
  | double => inferInstanceAs (DecidableEq Double)
  | string => inferInstanceAs (DecidableEq String)
  | pair => inferInstanceAs (DecidableEq (Double × Double))

/-- What stands at an undefined position. -/
def placeholder : (type : ColumnType) → type.Cell
  | double => Double.zero
  | string => ""
  | pair => (Double.zero, Double.zero)

/-- Cells on the wire; a pair is its two doubles. -/
def codec : (type : ColumnType) → Wire.Codec type.Cell
  | double => Wire.Codec.double
  | string => Wire.Codec.text
  | pair => Wire.Codec.double.pair Wire.Codec.double

end ColumnType

/-- The kind of an entity. -/
inductive Kind where
  | vertexSet
  | edgeBundle
  | column (type : ColumnType)
  deriving DecidableEq, Repr

namespace Kind

/-- All kinds, in the order of their wire numbers. -/
def all : List Kind := [vertexSet, edgeBundle, column .double, column .string, column .pair]

/-- The name of a kind in listings and messages. -/
def name : Kind → String
  | vertexSet => "vertex_set"
  | edgeBundle => "edge_bundle"
  | column .double => "double_attribute"
  | column .string => "string_attribute"
  | column .pair => "double_tuple2_attribute"

/-- The tag of a kind in structured text. -/
def tag : Kind → String
  | vertexSet => "VertexSet"
  | edgeBundle => "EdgeBundle"
  | column .double => "DoubleAttribute"
  | column .string => "StringAttribute"
  | column .pair => "DoubleTuple2Attribute"

/-- The wire number of a kind. -/
def number : Kind → Nat
  | vertexSet => 0
  | edgeBundle => 1
  | column .double => 2
  | column .string => 3
  | column .pair => 4

/-- Kinds on the wire are their numbers. -/
def codec : Wire.Codec Kind :=
  Wire.Codec.discriminant.via number fun n =>
    match all[n]? with
    | some kind => .ok kind
    | none => .error .custom

theorem all_number (kind : Kind) : all[kind.number]? = some kind := by
  rcases kind with _ | _ | _ | _ | _ <;> rfl

theorem restores_codec (kind : Kind) : codec.Restores kind := by
  refine Wire.Codec.restores_via (Wire.Codec.restores_discriminant ?_) ?_
  · rcases kind with _ | _ | _ | _ | _ <;> decide
  · rw [all_number]

end Kind

end GraphVault
