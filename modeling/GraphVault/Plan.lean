import GraphVault.Json.Reader
import GraphVault.Operation.Registry

/-!
# Plans

A plan is a JSON list of named steps, each of which becomes an instance. An input of a step is a
guid or `step.slot`, an output of an earlier step, so that a plan has no circles as written.
-/

namespace GraphVault

/-- A step of a plan. -/
structure Step where
  name : String
  className : String
  params : Json
  /-- What each input slot refers to. -/
  inputs : SortedMap String String
  /-- The declared output slots. -/
  outputs : List String

/-- A list of steps. -/
structure Plan where
  steps : List Step

/-- A step with the instance that it became. -/
structure PlannedStep where
  name : String
  planned : Instance

namespace Step

/-- Reads a step. Keys other than its fields and repeated keys are refused; parameters and inputs
may be left out. -/
def ofJson (json : Json) : Json.Reading Step := do
  let record ← json.asRecord "Step" 5
  record.strict ["name", "class", "params", "inputs", "outputs"]
  let name ← (← record.field 0 "name").asText
  let className ← (← record.field 1 "class").asText
  let params := record.fieldD 2 "params" (.object [])
  let inputs ← (record.fieldD 3 "inputs" (.object [])).asMap Json.asText
  let outputs ← (← record.field 4 "outputs").asList Json.asText
  record.finish
  return { name, className, params, inputs := SortedMap.ofList inputs, outputs }

end Step

namespace Plan

/-- The largest plan file that is read. -/
def maxFileSize : Nat := 16 * 1024 * 1024

/-- Reads a plan. -/
def ofJson (json : Json) : Json.Reading Plan := do
  let record ← json.asRecord "Plan" 1
  record.strict ["steps"]
  let steps ← (← record.field 0 "steps").asList Step.ofJson
  record.finish
  return { steps }

/-- Reads a plan from JSON text. -/
def ofText (s : String) : Except Failure Plan :=
  match Json.parse s with
  | .error fault => .error (.serialization (.plan fault.message))
  | .ok json =>
    match ofJson json with
    | .error mismatch => .error (.serialization (.plan mismatch.message))
    | .ok plan => .ok plan

/-- The outputs of earlier steps by step name. -/
abbrev Scope := SortedMap String Slots

/-- The parts of a text before and behind its first dot. -/
def splitDot (s : String) : Option (String × String) :=
  match s.toList.dropWhile (· ≠ '.') with
  | [] => none
  | _ :: slot => some (String.ofList (s.toList.takeWhile (· ≠ '.')), String.ofList slot)

/-- The guid that a reference stands for, or a reason why there is none. -/
def resolve (scope : Scope) (reference : String) : Except String Guid :=
  match Guid.parse? reference with
  | some guid => .ok guid
  | none =>
    match splitDot reference with
    | none => .error ("'" ++ reference ++ "' is neither a guid nor <step>.<slot>")
    | some (step, slot) =>
      match scope.get? step with
      | none => .error ("no earlier step named '" ++ step ++ "'")
      | some outputs =>
        match outputs.get? slot with
        | some guid => .ok guid
        | none => .error ("step '" ++ step ++ "' declares no output '" ++ slot ++ "'")

/-- The guids of the inputs of a step. -/
def resolveInputs (scope : Scope) (step : String) :
    List (String × String) → Except Failure (List (String × Guid))
  | [] => .ok []
  | (slot, reference) :: rest =>
    match resolve scope reference with
    | .error reason =>
      .error (.config (.step step ("input '" ++ slot ++ "': " ++ reason)))
    | .ok guid => return (slot, guid) :: (← resolveInputs scope step rest)

/-- The instance of a step. -/
def instanceOf (registry : Registry) (scope : Scope) (step : Step) : Except Failure Instance := do
  if scope.contains step.name then throw (.config (.step step.name "duplicate step name"))
  let description ← registry.describe step.className step.params
  let inputs ← resolveInputs scope step.name step.inputs.entries
  return Instance.derive description (SortedMap.ofList inputs) step.outputs

/-- The instances of steps that follow the steps of a scope. -/
def bind (registry : Registry) (scope : Scope) : List Step → Except Failure (List PlannedStep)
  | [] => .ok []
  | step :: rest => do
    let planned ← instanceOf registry scope step
    return ⟨step.name, planned⟩ :: (← bind registry (scope.insert step.name planned.outputs) rest)

/-- The instances of all steps. -/
def instantiate (plan : Plan) (registry : Registry) : Except Failure (List PlannedStep) :=
  bind registry SortedMap.empty plan.steps

end Plan

end GraphVault
