import GraphVault.Disk.Path

/-!
# Store settings

Where a store keeps its files and how it treats collisions of guids.
-/

namespace GraphVault

/-- What happens to different content under a registered guid. -/
inductive CollisionPolicy where
  /-- It is refused. -/
  | reject
  /-- It replaces the registered content. -/
  | overwrite
  deriving DecidableEq, Repr

namespace CollisionPolicy

/-- The name of a policy in configuration texts. -/
def name : CollisionPolicy → String
  | reject => "reject"
  | overwrite => "overwrite"

/-- The name of a policy in listings. -/
def title : CollisionPolicy → String
  | reject => "Reject"
  | overwrite => "Overwrite"

/-- The policy of a name. -/
def ofName? (name : String) : Option CollisionPolicy :=
  if name = "reject" then some reject else if name = "overwrite" then some overwrite else none

end CollisionPolicy

/-- The settings of a store. -/
structure Settings where
  /-- The root of the data in the ordered layout. -/
  dataDir : String
  /-- The root of the data in the unordered layout. -/
  unorderedDir : String
  collision : CollisionPolicy
  /-- Whether the outputs of operations are written to disk. -/
  persistOutputs : Bool
  /-- Whether a catalog of instances and persisted entities is kept. -/
  catalog : Bool
  deriving DecidableEq

namespace Settings

/-- The settings of a store that keeps everything in memory. -/
def default : Settings where
  dataDir := "sphynx-data/ordered"
  unorderedDir := "sphynx-data/unordered"
  collision := .reject
  persistOutputs := false
  catalog := false

/-- Settings with both roots below a common one. -/
def rootedAt (root : String) : Settings :=
  { default with dataDir := Path.join root "ordered", unorderedDir := Path.join root "unordered" }

/-- The same settings with outputs persisted and a catalog. -/
def persistent (settings : Settings) : Settings :=
  { settings with persistOutputs := true, catalog := true }

/-- Where the catalog is kept. -/
def catalogPath (settings : Settings) : String := Path.join settings.dataDir "catalog.redb"

end Settings

end GraphVault
