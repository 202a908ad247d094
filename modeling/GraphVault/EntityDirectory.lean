import GraphVault.Disk
import GraphVault.Format.Manifest

/-!
# Entity directories

Below a root, each stored entity has a directory named by its guid, with a manifest, a row file and
a marker. A directory without the marker counts as absent. An entity is assembled in a directory of
its own beside and appears in its place in one step, and a complete directory is never changed: what
a guid stands for is decided by its content.
-/

namespace GraphVault.EntityDirectory

/-- The manifest file of an entity directory. -/
def manifestFile : String := "manifest"

/-- The row file of an entity directory. -/
def rowsFile : String := "rows"

/-- The marker of a complete entity directory. -/
def marker : String := "_SUCCESS"

/-- The largest manifest that is read. -/
def maxManifestSize : Nat := 64 * 1024

/-- The largest row file that is read. -/
def maxRowFileSize : Nat := 2 * 1024 * 1024 * 1024

/-- The directory of an entity. -/
def path (root : String) (guid : Guid) : String := Path.join root guid.text

/-- A directory in which an entity is assembled. -/
def assembly (root : String) (guid : Guid) : String :=
  Path.join root (".staging-" ++ guid.text ++ "-000000")

/-- Whether an entity is completely written. -/
def contains (disk : Disk) (root : String) (guid : Guid) : Bool :=
  disk.isFile (Path.join (path root guid) marker)

/-- The failure of an action on a path. -/
def failed (action path : String) (fault : Disk.Fault) : Failure := .io (.doing action path fault)

/-- The disk with a complete entity directory at an address, in place of what was there. -/
def publish (disk : Disk) (address : Address) (stored : Stored) : Disk :=
  ((((disk.removeTree address).put address .directory).put (address ++ [manifestFile])
      (.file (.stored stored.manifest.encode))).put (address ++ [rowsFile])
      (.file (.stored stored.rows))).put (address ++ [marker]) (.file (.stored []))

/-- Writes an entity below a root. A complete directory is kept, an incomplete one replaced. -/
def write (root : String) (stored : Stored) : DiskM Unit := do
  let guid := stored.manifest.guid
  if contains (← get) root guid then return
  (Disk.createAll root).adaptExcept (failed "create data root" root)
  let disk ← get
  let _ ← MonadExcept.ofExcept
    ((disk.resolve (assembly root guid)).mapError (failed "create staging" root))
  let target := path root guid
  let address ← MonadExcept.ofExcept ((disk.resolve target).mapError (failed "publish" target))
  match disk.node? address with
  | none | some .directory => set (publish disk address stored)
  | some _ => throw (failed "clear incomplete" target .notDirectory)

/-- Reads a file that has at most a number of bytes. -/
def readLimited (disk : Disk) (path : String) (limit : Nat) : Except Failure Bytes := do
  let size ← (disk.sizeOf path).mapError (failed "stat" path)
  if limit < size then throw (.serialization (.fileSize path size limit))
  (disk.read path).mapError (failed "read" path)

/-- Reads an entity below a root. -/
def read (disk : Disk) (root : String) (guid : Guid) : Except Failure Stored := do
  if !contains disk root guid then throw (.missingEntity guid)
  let directory := path root guid
  let manifest ← readLimited disk (Path.join directory manifestFile) maxManifestSize
  let manifest ← Manifest.decode manifest guid
  let rows ← readLimited disk (Path.join directory rowsFile) maxRowFileSize
  return ⟨manifest, rows⟩

/-- Removes an entity below a root, if there is anything in its place. -/
def remove (root : String) (guid : Guid) : DiskM Unit := do
  let directory := path root guid
  if (← get).contains directory then
    (Disk.removeAll directory).adaptExcept (failed "remove" directory)

/-- The guids of all completely written entities below a root, in order. Names that are no guids
are skipped. -/
def list (disk : Disk) (root : String) : List Guid :=
  match disk.names root with
  | .error _ => []
  | .ok names =>
    ((names.filterMap Guid.parse?).filter (contains disk root)).mergeSort
      fun a b => (compare a b).isLE

end GraphVault.EntityDirectory
