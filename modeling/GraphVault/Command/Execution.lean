import GraphVault.Command
import GraphVault.Command.Report
import GraphVault.Operation.Builtin
import GraphVault.Plan.File
import GraphVault.Preview
import GraphVault.Settings.File

/-!
# Executing commands

A command is work on a disk whose answer is the text that is printed. Every command that needs a
store opens it for itself and closes it again, also when it fails.
-/

namespace GraphVault

namespace Command

/-- Works on a store that is open only for this. -/
def withVault {α : Type} (settings : Settings) (work : VaultM α) : DiskM α := fun disk =>
  match (Vault.open settings).run disk with
  | .error failure disk => .error failure disk
  | .ok vault _ =>
    match work.run vault with
    | .ok a vault => .ok a vault.close
    | .error failure vault => .error failure vault.close

/-- Changes the disk. -/
def change (steps : Disk.Steps Unit) : DiskM Unit := steps.adaptExcept fun fault => .io (.bare fault)

/-- Whether anything is in a directory. -/
def isPopulated (disk : Disk) (path : String) : Bool :=
  match disk.names path with
  | .ok names => !names.isEmpty
  | .error _ => false

/-- The two roots of a store. -/
def roots (settings : Settings) : List String := [settings.dataDir, settings.unorderedDir]

/-- Removes a root, if there is anything. -/
def wipe (root : String) : DiskM Unit := do
  if (← get).contains root then change (Disk.removeAll root)

/-- Makes the roots of a store and its catalog. Roots that hold anything are left alone, unless
`force` has them wiped. -/
def initStore (settings : Settings) (force : Bool) : DiskM String := do
  if (roots settings).any (isPopulated (← get)) then
    if !force then throw (.config (.dataExists settings.dataDir))
    (roots settings).forM wipe
  (roots settings).forM fun root => change (Disk.createAll root)
  withVault settings (pure ())
  return Text.lines (["Initialized Sphynx store",
    "  Ordered:   " ++ Text.quoted settings.dataDir,
    "  Unordered: " ++ Text.quoted settings.unorderedDir]
    ++ if settings.catalog then ["  Catalog:   " ++ Text.quoted settings.catalogPath] else [])

/-- Tells what a store holds. -/
def reportStatus : VaultM StatusReport := do
  let vault ← get
  let recorded ← match vault.records? with
    | none => pure none
    | some catalog => some <$> MonadExcept.ofExcept (Recorded.ofCatalog catalog)
  return ⟨vault.settings, vault.persistedGuids.length, recorded⟩

/-- Executes the plan at a path. The store is not opened for a plan that cannot be executed. -/
def runPlan (settings : Settings) (path : String) : DiskM PlanReport := do
  let plan ← MonadExcept.ofExcept (Plan.read (← get) path)
  let steps ← MonadExcept.ofExcept (plan.instantiate Registry.builtin)
  let dag ← MonadExcept.ofExcept (Dag.ofList (steps.map (·.planned)))
  let report ← withVault settings (Executor.run Registry.builtin dag)
  return { steps, report }

/-- The first rows of an entity. -/
def showEntity (guid : Guid) (limit : Nat) : VaultM EntityReport := do
  let entity ← Vault.getOrLoad guid
  let rows ← Preview.rows limit entity
  return { guid, entity, limit, rows }

/-- Writes an exchange copy of an entity. -/
def exportEntity (guid : Guid) : VaultM String := do
  let path ← Vault.exportUnordered guid
  return Text.lines ["Exported " ++ guid.text ++ " to " ++ Text.quoted path]

/-- Reads an exchange copy and persists it. -/
def importEntity (guid : Guid) : VaultM String := do
  let entity ← Vault.importUnordered guid
  let path ← Vault.persist guid
  return Text.lines ["Imported " ++ guid.text ++ " (" ++ entity.kind.name ++ ", "
    ++ toString entity.size ++ " rows) to " ++ Text.quoted path]

/-- Drops an entity. -/
def purgeEntity (guid : Guid) : VaultM String := do
  let removed ← Vault.purge guid
  return Text.lines [(if removed then "Purged " else "Nothing stored under ") ++ guid.text]

/-- The known classes. -/
def listClasses : Answer where
  lines := Registry.builtin.classes
  json := .list (Registry.builtin.classes.map .text)

/-- Executes a command. -/
def execute (settings : Settings) (jsonMode : Bool) : Command → DiskM String
  | init force => initStore settings force
  | status => return (← withVault settings reportStatus).answer.text jsonMode
  | run plan => return (← runPlan settings plan).answer.text jsonMode
  | .show guid limit => return (← withVault settings (showEntity guid limit)).answer.text jsonMode
  | exportCopy guid => withVault settings (exportEntity guid)
  | importCopy guid => withVault settings (importEntity guid)
  | purge guid => withVault settings (purgeEntity guid)
  | classes => return listClasses.text jsonMode

end Command

/-- Executes a command with the settings that it finds. -/
def Invocation.execute (invocation : Invocation) : DiskM String := do
  let settings ← MonadExcept.ofExcept
    (Settings.load (← get) invocation.config invocation.overrides)
  invocation.command.execute settings invocation.jsonMode

end GraphVault
