import GraphVault.Json.Shape
import GraphVault.Operation.Context

/-!
# Operations and their registry

An operation declares a type of parameters. Parameters arrive as JSON and are kept in canonical
form, which is their wire form, so that spelling never affects guids.
-/

namespace GraphVault

/-- The two written forms of a type of parameters. -/
structure ParamForm (π : Type) where
  codec : Wire.Codec π
  ofJson : Json → Json.Reading π
  toJson : π → Json

/-- A computation that can be run: its class, its parameters, and what it does in a context. -/
structure Operation where
  className : String
  Params : Type
  form : ParamForm Params
  execute : Params → Context → Except Failure Context

namespace Operation

/-- The canonical form of parameters given as JSON. -/
def canonical (operation : Operation) (params : Json) : Except Failure Bytes :=
  match operation.form.ofJson params with
  | .ok typed => .ok (operation.form.codec.encode typed)
  | .error mismatch => .error (.invalidParams operation.className mismatch.message)

/-- The parameters of a canonical form. -/
def typed (operation : Operation) (params : Bytes) : Except Failure operation.Params :=
  match operation.form.codec.read params with
  | .ok typed => .ok typed
  | .error fault => .error (.invalidParams operation.className fault.message)

/-- Runs an operation on parameters in canonical form. -/
def run (operation : Operation) (params : Bytes) (context : Context) : Except Failure Context := do
  operation.execute (← operation.typed params) context

end Operation

/-- The known operations by class. -/
structure Registry where
  operations : SortedMap String Operation

namespace Registry

/-- The registry without operations. -/
def empty : Registry := ⟨SortedMap.empty⟩

/-- Adds an operation, which replaces an earlier one of its class. -/
def register (registry : Registry) (operation : Operation) : Registry :=
  ⟨registry.operations.insert operation.className operation⟩

/-- The registry of a list of operations. -/
def ofList (operations : List Operation) : Registry := operations.foldl register empty

/-- Whether a class is known. -/
def contains (registry : Registry) (className : String) : Bool :=
  registry.operations.contains className

/-- The known classes, in order. -/
def classes (registry : Registry) : List String := registry.operations.keys

/-- Does something with the operation of a class. -/
def withOperation {α : Type} (registry : Registry) (className : String)
    (action : Operation → Except Failure α) : Except Failure α :=
  match registry.operations.get? className with
  | some operation => action operation
  | none => .error (.unknownOperation className)

/-- Describes a class with parameters given as JSON. -/
def describe (registry : Registry) (className : String) (params : Json) :
    Except Failure Description :=
  registry.withOperation className fun operation =>
    return ⟨className, ← operation.canonical params⟩

/-- The parameters of a description as JSON. -/
def paramsJson (registry : Registry) (description : Description) : Except Failure Json :=
  registry.withOperation description.className fun operation =>
    return operation.form.toJson (← operation.typed description.params)

/-- Runs a description in a context. -/
def run (registry : Registry) (description : Description) (context : Context) :
    Except Failure Context :=
  registry.withOperation description.className fun operation =>
    operation.run description.params context

end Registry

end GraphVault
