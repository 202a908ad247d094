import GraphVault.Command.Execution
import GraphVault.CommandLine
import GraphVault.Disk.Changes

/-!
# The program

Takes what a command line may touch from the file system, executes the command on it, and carries
the changes back.
-/

namespace GraphVault.Program

/-- The disk with what the file system holds at an address and below it, where the file at the
address `catalog` is a catalog. Where `deep` does not hold,
nothing below a directory is taken. -/
partial def take (catalog : Option Address) (deep : Bool) (disk : Disk) (address : Address) :
    IO Disk := do
  let here := (← IO.currentDir) / Disk.pathOf address
  if ← here.isDir then
    let disk := if Disk.isPermanent address then disk else disk.put address .directory
    if !deep then return disk
    let names := (← here.readDir).toList.map (·.fileName)
    names.foldlM (fun disk name => take catalog deep disk (address ++ [name])) disk
  else if ← here.pathExists then
    let bytes := (← IO.FS.readBinFile here).toList
    match if catalog = some address then Catalog.decodeFile? bytes else none with
    | some catalog =>
      return { disk with catalogs := disk.catalogs ++ [catalog] }.put address
        (.database disk.catalogs.length)
    | none => return disk.put address (.file (.stored bytes))
  else return disk

/-- The addresses that lead to a path, that of the path last. -/
def leading (path : String) : List Address :=
  match Disk.parts path with
  | .error _ => []
  | .ok (start, parts) =>
    (parts.foldl (fun (address, found) part =>
      match Disk.enter address part with
      | .ok next => (next, found ++ [next])
      | .error _ => (address, found)) (start, ([] : List Address))).2

/-- The disk with what the file system holds on the way to a path and below it. -/
def takePath (catalog : Option Address) (disk : Disk) (path : String) : IO Disk := do
  let addresses := leading path
  let disk ← addresses.dropLast.foldlM (take catalog false) disk
  match addresses.getLast? with
  | some address => take catalog true disk address
  | none => return disk

/-- Carries out one change. -/
def apply : Disk.Change → IO Unit
  | .remove path => do
    let here := (← IO.currentDir) / path
    if ← here.isDir then IO.FS.removeDirAll here else IO.FS.removeFile here
  | .makeDirectory path => do IO.FS.createDirAll ((← IO.currentDir) / path)
  | .store path bytes => do
    IO.FS.writeBinFile ((← IO.currentDir) / path) (ByteArray.mk bytes.toArray)

/-- The files that are read besides those of the store. -/
def inputs (invocation : Invocation) : List String :=
  (invocation.config.getD Settings.defaultFile) ::
    match invocation.command with
    | .run plan => [plan]
    | _ => []

/-- The exit code of a failure: another one if trying again may help. -/
def exitCode (failure : Failure) : UInt32 := if failure.isRetryable then 75 else 1

/-- Reports a failure. -/
def fail (failure : Failure) : IO UInt32 := do
  IO.eprintln ("Error: " ++ failure.message)
  return exitCode failure

/-- Executes an invocation on the file system. -/
def execute (invocation : Invocation) : IO UInt32 := do
  let disk ← (inputs invocation).foldlM (takePath none) Disk.empty
  match Settings.load disk invocation.config invocation.overrides with
  | .error failure => fail failure
  | .ok settings =>
    let roots := [settings.dataDir, settings.unorderedDir]
    let catalog := (leading settings.catalogPath).getLast?
    let before ← roots.foldlM (takePath catalog) disk
    match invocation.execute.run before with
    | .ok printed after =>
      (Disk.changes before after).forM apply
      IO.print printed
      return 0
    | .error failure after =>
      (Disk.changes before after).forM apply
      fail failure

/-- The directories that the environment gives. -/
def environment : IO Overrides := do
  return ⟨← IO.getEnv CommandLine.dataDirVariable, ← IO.getEnv CommandLine.unorderedDirVariable⟩

/-- Reports why a command line cannot be executed. -/
def refuse (fault : UsageFault) : IO UInt32 := do
  if fault = .helpAsked ∨ fault = .versionAsked then
    IO.print fault.message
    return 0
  else
    IO.eprint fault.message
    return 2

end GraphVault.Program

/-- Executes the command line of the program. -/
def main (words : List String) : IO UInt32 := do
  match GraphVault.CommandLine.parse (← GraphVault.Program.environment) words with
  | .error fault => GraphVault.Program.refuse fault
  | .ok invocation => GraphVault.Program.execute invocation
