import GraphVault.Disk
import GraphVault.Settings.Document

/-!
# Settings files

The configuration document on a disk: one that is named has to be there, the one at the default
place need not.
-/

namespace GraphVault.Settings

/-- Where a configuration document is looked for unless one is named. -/
def defaultFile : String := "sphynx.toml"

/-- The largest configuration document that is read. -/
def maxFileSize : Nat := 1024 * 1024

/-- Reads a configuration document. -/
def readDocument (disk : Disk) (path : String) : Except Failure SettingsDocument := do
  let size ← (disk.sizeOf path).mapError fun fault => .config (.unreadable path fault)
  if maxFileSize < size then throw (.config (.fileSize path maxFileSize))
  let document ← (disk.readText path).mapError fun fault => .io (.bare fault)
  (SettingsDocument.ofText document).mapError fun reason =>
    .config (.malformed (path ++ ": " ++ reason))

/-- The settings of the program: those of the document that is named or else of the default one if
it is there, replaced by the ones given from outside. -/
def load (disk : Disk) (path : Option String) (overrides : Overrides) : Except Failure Settings := do
  match path with
  | some path => return (← readDocument disk path).apply overrides
  | none =>
    if disk.isFile defaultFile then return (← readDocument disk defaultFile).apply overrides
    else return SettingsDocument.empty.apply overrides

end GraphVault.Settings
