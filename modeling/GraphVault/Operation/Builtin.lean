import GraphVault.Operation.Registry

/-!
# Built-in operations

An example graph, columns of one constant, and the reversal of edges.
-/

namespace GraphVault

namespace ParamForm

/-- No parameters; any object will do, or an empty array. -/
def none : ParamForm Unit where
  codec := Wire.Codec.unit
  ofJson json := do
    let record ← json.asRecord "NoParams" 0
    record.finish
  toJson _ := .object []

/-- A record with the single field `value`. -/
def constant {α : Type} (codec : Wire.Codec α) (ofJson : Json → Json.Reading α)
    (toJson : α → Json) : ParamForm α where
  codec := codec
  ofJson json := do
    let record ← json.asRecord "ConstantParams" 1
    let value ← ofJson (← record.field 0 "value")
    record.finish
    return value
  toJson value := .object [("value", toJson value)]

end ParamForm

namespace Operation

/-- Fills the output `attr` with one cell for each position of the vertex set `vs`. -/
def constantColumn (type : ColumnType) (value : type.Cell) (context : Context) :
    Except Failure Context := do
  let guid ← context.inputGuid "vs"
  let set ← context.vertexSet "vs"
  context.output "attr" (.column type (Attribute.dense guid (List.replicate set.size value)))

/-- A column of one double. -/
def addConstantDouble : Operation where
  className := "AddConstantDoubleAttribute"
  Params := Double
  form := ParamForm.constant Wire.Codec.double Json.asDouble Json.ofDouble
  execute := constantColumn .double

/-- A column of one text. -/
def addConstantString : Operation where
  className := "AddConstantStringAttribute"
  Params := String
  form := ParamForm.constant Wire.Codec.text Json.asText Json.text
  execute := constantColumn .string

/-- Exchanges the two ends of all edges of `es`. -/
def reverseEdges : Operation where
  className := "ReverseEdges"
  Params := Unit
  form := ParamForm.none
  execute _ context := do
    let bundle ← context.edgeBundle "es"
    context.output "reversed" (.edgeBundle bundle.reverse)

/-! ### The example graph -/

/-- The double nearest to a decimal fraction. -/
def decimal (negative : Bool) (numerator denominator : Nat) : Double :=
  (Double.ofRatio numerator denominator).withSign negative

/-- The columns of the example graph by slot, over its vertex set. -/
def exampleColumns (vertices : Guid) : List (String × Entity) :=
  [("name", .column .string
      (Attribute.dense vertices ["Adam", "Eve", "Bob", "Isolated Joe"])),
    ("age", .column .double (Attribute.dense vertices
      [decimal false 203 10, decimal false 182 10, decimal false 503 10, decimal false 2 1])),
    ("gender", .column .string (Attribute.dense vertices ["Male", "Female", "Male", "Male"])),
    ("income", .column .double (Attribute.ofOptions Double.zero vertices
      [some (decimal false 1000 1), Option.none, some (decimal false 2000 1), Option.none])),
    ("location", .column .pair (Attribute.dense vertices
      [(decimal false 4071428 100000, decimal true 7400597 100000),
        (decimal false 475269674 10000000, decimal false 190323968 10000000),
        (decimal false 1352083 1000000, decimal false 103819836 1000000),
        (decimal true 338674869 10000000, decimal false 1512069902 10000000)]))]

/-- The edges of the example graph over its vertex set. -/
def exampleEdges (vertices : Guid) : EdgeBundle :=
  ⟨[0, 1, 2, 2], [1, 0, 0, 1], [0, 1, 2, 3], vertices, vertices⟩

/-- A graph of four people. -/
def exampleGraph : Operation where
  className := "ExampleGraph"
  Params := Unit
  form := ParamForm.none
  execute _ context := do
    let vertices ← context.outputGuid "vertices"
    let context ← context.output "vertices" (.vertexSet ⟨[0, 1, 2, 3]⟩)
    let context ← context.output "edges" (.edgeBundle (exampleEdges vertices))
    (exampleColumns vertices).foldlM (fun context (slot, column) => context.output slot column)
      context

end Operation

/-- The registry of all built-in operations. -/
def Registry.builtin : Registry :=
  Registry.ofList [Operation.exampleGraph, Operation.addConstantDouble,
    Operation.addConstantString, Operation.reverseEdges]

end GraphVault
