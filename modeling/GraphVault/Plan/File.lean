import GraphVault.Disk
import GraphVault.Plan

/-!
# Plan files

Plans on a disk, up to a largest size.
-/

namespace GraphVault.Plan

/-- Reads a plan file. -/
def read (disk : Disk) (path : String) : Except Failure Plan := do
  let size ← (disk.sizeOf path).mapError fun fault => .io (.plan path fault)
  if maxFileSize < size then throw (.serialization (.planSize size maxFileSize))
  ofText (← (disk.readText path).mapError fun fault => .io (.bare fault))

end GraphVault.Plan
