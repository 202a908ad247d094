import GraphVault.Entity
import GraphVault.Operation.Instance

/-!
# Operation contexts

What a running operation sees: its inputs, already resolved, and the slots its outputs go to. An
operation never sees the store.
-/

namespace GraphVault

/-- The inputs of a running operation, its declared outputs and what it has produced so far. -/
structure Context where
  className : String
  inputs : SortedMap String (Guid × Entity)
  declared : Slots
  produced : SortedMap String Entity

namespace Context

/-- The context of an instance with resolved inputs, before anything is produced. -/
def start (i : Instance) (inputs : SortedMap String (Guid × Entity)) : Context :=
  ⟨i.className, inputs, i.outputs, SortedMap.empty⟩

/-- What is bound to an input slot. -/
def input (context : Context) (slot : String) : Except Failure (Guid × Entity) :=
  match context.inputs.get? slot with
  | some input => .ok input
  | none =>
    .error (.operationFailed context.className ("no input bound to slot '" ++ slot ++ "'"))

/-- The guid bound to an input slot. -/
def inputGuid (context : Context) (slot : String) : Except Failure Guid :=
  return (← context.input slot).1

/-- The vertex set bound to an input slot. -/
def vertexSet (context : Context) (slot : String) : Except Failure VertexSet := do
  let (guid, entity) ← context.input slot
  entity.asVertexSet guid

/-- The edge bundle bound to an input slot. -/
def edgeBundle (context : Context) (slot : String) : Except Failure EdgeBundle := do
  let (guid, entity) ← context.input slot
  entity.asEdgeBundle guid

/-- The entity of a kind that is bound to an input slot. -/
def inputOfKind (context : Context) (slot : String) (kind : Kind) : Except Failure Entity := do
  let (guid, entity) ← context.input slot
  entity.requireKind guid kind
  return entity

/-- The guid under which an output slot will be published. -/
def outputGuid (context : Context) (slot : String) : Except Failure Guid :=
  match context.declared.get? slot with
  | some guid => .ok guid
  | none => .error (.unexpectedOutput context.className slot)

/-- Hands over an output, which has to be declared. -/
def output (context : Context) (slot : String) (entity : Entity) : Except Failure Context := do
  let _ ← context.outputGuid slot
  return { context with produced := context.produced.insert slot entity }

/-- What was produced, with the guids to publish it under; every declared slot has to be there. -/
def outputs (context : Context) : Except Failure (List (Guid × Entity)) :=
  match context.declared.keys.find? fun slot => !context.produced.contains slot with
  | some slot => .error (.missingOutput context.className slot)
  | none =>
    context.produced.entries.mapM fun (slot, entity) => do
      return (← context.outputGuid slot, entity)

end Context

end GraphVault
