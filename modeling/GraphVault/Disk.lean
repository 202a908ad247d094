import GraphVault.Catalog
import GraphVault.Disk.Fault
import GraphVault.Disk.Path

/-!
# Disks

A disk holds directories, files and catalog databases under their addresses, which start at the
working directory or at the root of the file system. A path is resolved part by part: whatever it
goes on below has to be a directory.

Making and removing whole trees takes several steps, and those done before a fault stay done.
-/

namespace GraphVault

/-- The content of a file. -/
inductive Content where
  | stored (bytes : Bytes)
  /-- One byte, repeated. -/
  | filled (size : Nat) (byte : UInt8)

namespace Content

/-- The number of bytes. -/
def size : Content → Nat
  | stored bytes => bytes.length
  | filled size _ => size

/-- The bytes themselves. -/
def bytes : Content → Bytes
  | stored bytes => bytes
  | filled size byte => List.replicate size byte

end Content

/-- What stands at an address. -/
inductive Node where
  | directory
  | file (content : Content)
  /-- A catalog, given by its number. -/
  | database (id : Nat)

/-- The names that lead to a node. -/
abbrev Address := List String

/-- Everything below the working directory and the root, all catalogs ever made, and the numbers of
those that a store holds. -/
structure Disk where
  nodes : SortedMap Address Node
  catalogs : List Catalog
  held : List Nat

/-- Work on a disk, which may fail. What was done before a failure stays done. -/
abbrev DiskM := EStateM Failure Disk

namespace Disk

/-- Steps on a disk, which may be refused. What was done before a fault stays done. -/
abbrev Steps := EStateM Fault Disk

/-- The disk without any nodes. -/
def empty : Disk := ⟨SortedMap.empty, [], []⟩

/-- The working directory. -/
def workingDirectory : Address := []

/-- The root of the file system. -/
def root : Address := ["/"]

/-- The name of the directory above. -/
def parent : String := ".."

/-- Whether a directory is always there: the root, the working directory, or one above it. -/
def isPermanent (address : Address) : Bool := address = root || address.all (· = parent)

/-- The path that leads to an address. -/
def pathOf : Address → String
  | "/" :: names => "/" ++ String.intercalate "/" names
  | names => String.intercalate "/" names

/-- The node at an address. -/
def node? (disk : Disk) (address : Address) : Option Node :=
  if isPermanent address then some .directory else disk.nodes.get? address

/-- The most bytes that a name may have. -/
def maxNameBytes : Nat := 255

/-- The address of the directory above. -/
def above (address : Address) : Address :=
  if address = root then root
  else if isPermanent address then address ++ [parent]
  else address.dropLast

/-- The address of one more part of a path, behind those that lead to a directory. -/
def enter (address : Address) (part : String) : Except Fault Address :=
  if part = "" ∨ part = "." then .ok address
  else if part = parent then .ok (above address)
  else if maxNameBytes < part.utf8ByteSize then .error .nameTooLong
  else .ok (address ++ [part])

/-- Accepts an address at which a directory stands. -/
def requireDirectory (disk : Disk) (address : Address) : Except Fault Unit :=
  match disk.node? address with
  | some .directory => .ok ()
  | some _ => .error .notDirectory
  | none => .error .notFound

/-- The number of bytes that no path may have. -/
def pathBytesLimit : Nat := 4096

/-- Where a path starts, and its parts. -/
def parts (path : String) : Except Fault (Address × List String) :=
  if path.toList.contains '\x00' then .error .nullCharacter
  else if path = "" then .error .notFound
  else if pathBytesLimit ≤ path.utf8ByteSize then .error .nameTooLong
  else .ok (if Path.isAbsolute path then root else workingDirectory,
    Path.segments path)

/-- The address to which parts of a path lead; the last need not be there. -/
def follow (disk : Disk) (start : Address) (parts : List String) : Except Fault Address :=
  parts.foldlM (fun address part => do
    disk.requireDirectory address
    enter address part) start

/-- The address of a path; its last part need not be there. -/
def resolve (disk : Disk) (path : String) : Except Fault Address := do
  let (start, parts) ← parts path
  disk.follow start parts

/-- The directory above the last part of a path, and that part; slashes behind it do not count.
There is no such part in a path to the root. -/
def locate (disk : Disk) (path : String) : Except Fault (Address × Option String) := do
  let (start, parts) ← parts path
  match parts.reverse.dropWhile (·.isEmpty) with
  | [] => return (start, none)
  | last :: above =>
    let address ← disk.follow start above.reverse
    disk.requireDirectory address
    return (address, some last)

/-- The node at a path. -/
def find (disk : Disk) (path : String) : Except Fault Node := do
  match disk.node? (← disk.resolve path) with
  | some node => return node
  | none => throw .notFound

/-- Whether a path leads to anything. -/
def contains (disk : Disk) (path : String) : Bool := (disk.find path).toBool

/-- Whether a path leads to a file. -/
def isFile (disk : Disk) (path : String) : Bool :=
  match disk.find path with
  | .ok (.file _) | .ok (.database _) => true
  | _ => false

/-- Whether a path leads to a directory. -/
def isDirectory (disk : Disk) (path : String) : Bool :=
  match disk.find path with
  | .ok .directory => true
  | _ => false

/-- The size that is told of a directory. -/
def directorySize : Nat := 4096

/-- The size of what a path leads to. -/
def sizeOf (disk : Disk) (path : String) : Except Fault Nat := do
  match ← disk.find path with
  | .directory => return directorySize
  | .file content => return content.size
  | .database _ => return directorySize

/-- The content of a file; a catalog cannot be read as one. -/
def read (disk : Disk) (path : String) : Except Fault Bytes := do
  match ← disk.find path with
  | .file content => return content.bytes
  | .directory => throw .isDirectory
  | .database _ => throw .notText

/-- The content of a file of text. -/
def readText (disk : Disk) (path : String) : Except Fault String := do
  match Bytes.text? (← disk.read path) with
  | some s => return s
  | none => throw .notText

/-- The disk with a node at an address. -/
def put (disk : Disk) (address : Address) (node : Node) : Disk :=
  { disk with nodes := disk.nodes.insert address node }

/-- Writes a file, in place of one that is there. -/
def write (disk : Disk) (path : String) (content : Content) : Except Fault Disk := do
  let address ← disk.resolve path
  match disk.node? address with
  | some .directory => throw .isDirectory
  | _ => return disk.put address (.file content)

/-- Makes one directory, whose name has to be new. -/
def makeDirectory (disk : Disk) (path : String) : Except Fault Disk := do
  match ← disk.locate path with
  | (_, none) | (_, some ".") | (_, some "..") => throw .taken
  | (above, some name) =>
    let address ← enter above name
    if (disk.node? address).isSome then throw .taken
    return disk.put address .directory

/-- Makes one directory unless it is there. -/
def ensureDirectory (path : String) : Steps Unit := do
  match makeDirectory (← get) path with
  | .ok disk => set disk
  | .error fault => if !(← get).isDirectory path then throw fault

/-- Makes one directory unless it is there, after what is missing above it. -/
def createBelow (createAbove : Steps Unit) (path : String) : Steps Unit := do
  if let .error .notFound := makeDirectory (← get) path then createAbove
  ensureDirectory path

/-- Makes the directories to which names lead, given from the last. -/
def createNames (absolute : Bool) : List String → Steps Unit
  | [] => pure ()
  | name :: above =>
    createBelow (createNames absolute above) (Path.ofNames absolute (name :: above).reverse)

/-- Makes a directory and all directories above it. -/
def createAll (path : String) : Steps Unit :=
  if path = "" then pure ()
  else createBelow (createNames (Path.isAbsolute path) (Path.names path).dropLast.reverse) path

/-- The disk without a node and what is below it. -/
def removeTree (disk : Disk) (address : Address) : Disk :=
  { disk with nodes := disk.nodes.filter fun other _ => !address.isPrefixOf other }

/-- Whether an address is below another one. -/
def isBelow (address other : Address) : Bool :=
  address.isPrefixOf other && other ≠ address &&
    (address ≠ workingDirectory || !(root.isPrefixOf other || other.head? = some parent))

/-- The disk without what is below an address. -/
def clear (disk : Disk) (address : Address) : Disk :=
  { disk with nodes := disk.nodes.filter fun other _ => !isBelow address other }

/-- Removes one directory, which has to be empty and called by its name. -/
def removeDirectory (disk : Disk) (path : String) : Except Fault Disk := do
  match ← disk.locate path with
  | (_, none) | (_, some ".") => throw .unnamed
  | (_, some "..") => throw .notEmpty
  | (above, some name) =>
    let address ← enter above name
    disk.requireDirectory address
    if disk.nodes.keys.any (isBelow address) then throw .notEmpty
    return disk.removeTree address

/-- Removes a directory with everything in it. A path that leads through what is removed does not
lead to the directory any more, which then stays. -/
def removeAll (path : String) : Steps Unit := do
  let disk ← get
  let address ← MonadExcept.ofExcept (disk.resolve path)
  MonadExcept.ofExcept (disk.requireDirectory address)
  let disk := disk.clear address
  set disk
  match disk.removeDirectory path with
  | .ok disk => set disk
  | .error .notFound => pure ()
  | .error fault => throw fault

/-- The names in a directory. -/
def names (disk : Disk) (path : String) : Except Fault (List String) := do
  let address ← disk.resolve path
  disk.requireDirectory address
  return disk.nodes.keys.filterMap fun other =>
    if other.dropLast = address then other.getLast? else none

/-- The disk with a copy of a node at an address; a catalog becomes another one. -/
def putCopy (disk : Disk) (address : Address) : Node → Disk
  | .database id =>
    { disk with catalogs := disk.catalogs ++ [disk.catalogs[id]?.getD .empty] }.put address
      (.database disk.catalogs.length)
  | node => disk.put address node

/-- Makes a directory and copies into it what is below another one. -/
def copyBelow (path target : String) : Steps Unit := do
  createAll target
  let disk ← get
  let source ← MonadExcept.ofExcept (disk.resolve path)
  let target ← MonadExcept.ofExcept (disk.resolve target)
  let below := disk.nodes.entries.filter fun (address, _) => isBelow source address
  set (below.foldl (fun copy (address, node) =>
    copy.putCopy (target ++ address.drop source.length) node) disk)

/-- The paths of all nodes below the working directory, in order; those of directories end in a
slash. -/
def paths (disk : Disk) : List String :=
  let below := disk.nodes.entries.filter fun (address, _) => isBelow workingDirectory address
  (below.map fun (address, node) =>
    pathOf address ++ match node with
      | .directory => "/"
      | _ => "").mergeSort fun a b => a ≤ b

/-! ### Catalogs -/

/-- The catalog of a number. -/
def catalog (disk : Disk) (id : Nat) : Catalog := disk.catalogs[id]?.getD Catalog.empty

/-- The disk with another catalog under a number. -/
def setCatalog (disk : Disk) (id : Nat) (catalog : Catalog) : Disk :=
  { disk with catalogs := disk.catalogs.set id catalog }

/-- A disk on which a store holds the catalog of a number. -/
def hold (disk : Disk) (id : Nat) : Disk := { disk with held := id :: disk.held }

/-- A disk on which nobody holds the catalog of a number. -/
def release (disk : Disk) (id : Nat) : Disk := { disk with held := disk.held.filter (· ≠ id) }

/-- Opens the catalog at a path, or makes one where there is nothing or an empty file, and holds
it. -/
def openCatalog (path : String) : DiskM Nat := do
  let disk ← get
  let storage (fault : Fault) : Failure := .storage (.io fault)
  let address ← MonadExcept.ofExcept ((disk.resolve path).mapError storage)
  let create : DiskM Nat := do
    let id := disk.catalogs.length
    let catalogs := disk.catalogs ++ [Catalog.empty]
    set (({ disk with catalogs }.put address (.database id)).hold id)
    return id
  match disk.node? address with
  | none => create
  | some .directory => throw (storage .isDirectory)
  | some (.file content) => if content.size = 0 then create else throw (.storage .foreign)
  | some (.database id) =>
    if id ∈ disk.held then throw (.storage .locked)
    set (disk.hold id)
    return id

end Disk

end GraphVault
