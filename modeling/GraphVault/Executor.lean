import GraphVault.Dag
import GraphVault.Operation.Registry
import GraphVault.Vault

/-!
# Executing instances

An instance whose outputs are all known is not run again. Otherwise its inputs are resolved, its
operation is run, and its outputs are registered, vertex sets first, and written to disk if the
settings say so. A graph of instances is executed wave by wave.
-/

namespace GraphVault

/-- What executing an instance came to. -/
inductive Outcome where
  /-- All outputs were known. -/
  | cached
  /-- The operation ran. -/
  | computed
  deriving DecidableEq, Repr

/-- The name of an outcome. -/
def Outcome.name : Outcome → String
  | cached => "Cached"
  | computed => "Computed"

/-- The outcomes of a run by instance. -/
structure Report where
  outcomes : SortedMap Guid Outcome

namespace Report

/-- How many instances came to an outcome. -/
def count (report : Report) (outcome : Outcome) : Nat := report.outcomes.values.count outcome

/-- The number of instances that were not run again. -/
def cached (report : Report) : Nat := report.count .cached

/-- The number of instances that were run. -/
def computed (report : Report) : Nat := report.count .computed

end Report

namespace Executor

/-- Whether an instance has outputs and all of them are known. -/
def isCached (vault : Vault) (i : Instance) : Bool :=
  !i.outputs.isEmpty && i.outputs.values.all fun guid => vault.has guid || vault.hasPersisted guid

/-- The entity of an input, which is missing as an input if it is missing as an entity. -/
def resolveInput (slot : String) (guid : Guid) : VaultM Entity :=
  tryCatch (Vault.getOrLoad guid) fun failure =>
    throw (if failure = .missingEntity guid then .missingInput slot guid else failure)

/-- All inputs of an instance. -/
def resolveInputs (i : Instance) : VaultM (SortedMap String (Guid × Entity)) := do
  let inputs ← i.inputs.entries.mapM fun (slot, guid) => do
    return (slot, (guid, ← resolveInput slot guid))
  return SortedMap.ofList inputs

/-- The outputs of an instance, vertex sets first. -/
def produce (registry : Registry) (i : Instance) : VaultM (List (Guid × Entity)) := do
  let inputs ← resolveInputs i
  let context ← MonadExcept.ofExcept (registry.run i.description (Context.start i inputs))
  let outputs ← MonadExcept.ofExcept context.outputs
  return outputs.mergeSort fun a b => a.2.publishRank ≤ b.2.publishRank

/-- Writes the outputs of an instance to disk and records the instance. -/
def persistOutputs (i : Instance) (outputs : List (Guid × Entity)) : VaultM Unit := do
  outputs.forM fun (guid, _) => do
    let _ ← Vault.persistFrom guid (some i.guid)
  Vault.modifyCatalog (·.recordInstance i)

/-- Executes one instance. -/
def execute (registry : Registry) (i : Instance) : VaultM Outcome := do
  MonadExcept.ofExcept i.verify
  if isCached (← get) i then return .cached
  let outputs ← produce registry i
  outputs.forM fun (guid, entity) => do
    let _ ← Vault.put guid entity
  if (← get).settings.persistOutputs then persistOutputs i outputs
  return .computed

/-- Executes an instance of a run, in which an operation that gives up has failed. -/
def attempt (registry : Registry) (i : Instance) : VaultM (Except Failure Outcome) :=
  tryCatch (Except.ok <$> execute registry i) fun
    | .aborted _ => return .error (.operationFailed i.className "operation panicked")
    | failure => return .error failure

/-- Executes all instances of a wave; the first failure among them is that of the wave. -/
def executeWave (registry : Registry) (wave : List Instance) : VaultM (List (Guid × Outcome)) := do
  let results ← wave.mapM fun i => return (i.guid, ← attempt registry i)
  MonadExcept.ofExcept (results.mapM fun (guid, result) => result.map fun outcome => (guid, outcome))

/-- Executes a graph of instances. No wave starts behind one that failed. -/
def run (registry : Registry) (dag : Dag) : VaultM Report := do
  let waves ← MonadExcept.ofExcept dag.waves
  let outcomes ← waves.mapM (executeWave registry)
  return ⟨SortedMap.ofList outcomes.flatten⟩

end Executor

end GraphVault
