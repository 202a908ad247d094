import GraphVault.Catalog.File
import GraphVault.EntityDirectory

/-!
# Changes between disks

What has to be done to turn one disk into another. Markers of complete entity directories are taken
away first and put up last, so that whoever stops halfway leaves no directory that looks complete
and is not.
-/

namespace GraphVault.Disk

/-- One change at a path. -/
inductive Change where
  /-- Takes away a file or a directory. -/
  | remove (path : String)
  | makeDirectory (path : String)
  /-- Writes a file. -/
  | store (path : String) (bytes : Bytes)
  deriving DecidableEq

/-- The bytes of the file that a node is; a directory has none. -/
def fileBytes? (disk : Disk) : Node → Option Bytes
  | .directory => none
  | .file content => some content.bytes
  | .database id => some (disk.catalog id).encodeFile

/-- The bytes at an address, or `none` inside for a directory. -/
def look? (disk : Disk) (address : Address) : Option (Option Bytes) :=
  (disk.nodes.get? address).map disk.fileBytes?

/-- Whether an address is that of a marker. -/
def isMarker (address : Address) : Bool := address.getLast? = some EntityDirectory.marker

/-- The addresses that are gone, or that hold a directory in place of a file or the reverse; those
below others come first. -/
def gone (before after : Disk) : List Address :=
  (before.nodes.entries.filterMap fun (address, node) =>
    let stays := match after.look? address with
      | none => false
      | some content => content.isSome = (before.fileBytes? node).isSome
    if stays then none else some address).reverse

/-- The addresses that are new or hold something else, with what they hold. -/
def fresh (before after : Disk) : List (Address × Option Bytes) :=
  after.nodes.entries.filterMap fun (address, node) =>
    let content := after.fileBytes? node
    if before.look? address = some content then none else some (address, content)

/-- What makes an address hold a directory or a file. -/
def Change.make (address : Address) : Option Bytes → Change
  | none => .makeDirectory (pathOf address)
  | some bytes => .store (pathOf address) bytes

/-- The changes from one disk to another. -/
def changes (before after : Disk) : List Change :=
  let (markersGone, othersGone) := (gone before after).partition isMarker
  let (markers, others) := (fresh before after).partition fun (address, _) => isMarker address
  (markersGone ++ othersGone).map (fun address => .remove (pathOf address))
    ++ (others ++ markers).map fun (address, content) => Change.make address content

end GraphVault.Disk
