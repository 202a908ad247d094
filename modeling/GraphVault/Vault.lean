import GraphVault.EntityDirectory
import GraphVault.Format.Unordered
import GraphVault.Settings

/-!
# Vaults

A vault maps guids to entities in memory and keeps copies of them on disk: final ones in the ordered
layout, and exchange copies in the unordered layout. An entity is registered only if it fits the
vertex sets it refers to, which are taken from memory or else loaded from disk. Under
`CollisionPolicy.reject` what a guid stands for never changes; under `CollisionPolicy.overwrite` it
may, except that a vertex set never changes its size or becomes something else.

Whatever happened before a failure stays done.
-/

namespace GraphVault

/-- An open store: its settings, the entities in memory, the number of its catalog, and the disk. -/
structure Vault where
  settings : Settings
  entities : SortedMap Guid Entity
  catalog : Option Nat
  disk : Disk

/-- Work on a vault, which may fail. -/
abbrev VaultM := EStateM Failure Vault

namespace Vault

/-- Opens a vault, and its catalog if the settings ask for one. -/
def «open» (settings : Settings) : DiskM Vault := do
  if settings.catalog then
    (Disk.createAll (Path.parent settings.catalogPath)).adaptExcept fun fault => .io (.bare fault)
    let id ← Disk.openCatalog settings.catalogPath
    return ⟨settings, SortedMap.empty, some id, ← get⟩
  else return ⟨settings, SortedMap.empty, none, ← get⟩

/-- A vault with the default settings. -/
def inMemory (disk : Disk) : Vault := ⟨Settings.default, SortedMap.empty, none, disk⟩

/-- The disk that a vault leaves behind. -/
def close (vault : Vault) : Disk :=
  match vault.catalog with
  | some id => vault.disk.release id
  | none => vault.disk

/-- Work on the disk of a vault. -/
def onDisk {α : Type} (work : DiskM α) : VaultM α := fun vault =>
  match work.run vault.disk with
  | .ok a disk => .ok a { vault with disk }
  | .error failure disk => .error failure { vault with disk }

/-! ### Memory -/

/-- Whether a guid is registered in memory. -/
def has (vault : Vault) (guid : Guid) : Bool := vault.entities.contains guid

/-- The entity registered under a guid. -/
def get? (vault : Vault) (guid : Guid) : Option Entity := vault.entities.get? guid

/-- Whether an entity is completely written to disk. -/
def hasPersisted (vault : Vault) (guid : Guid) : Bool :=
  EntityDirectory.contains vault.disk vault.settings.dataDir guid

/-- The guids of all entities that are completely written to disk. -/
def persistedGuids (vault : Vault) : List Guid :=
  EntityDirectory.list vault.disk vault.settings.dataDir

/-- The records of the catalog, if there is one. -/
def records? (vault : Vault) : Option Catalog := vault.catalog.map vault.disk.catalog

/-- The entity registered under a guid, which has to be in memory. -/
def require (guid : Guid) : VaultM Entity := do
  match (← get).get? guid with
  | some entity => return entity
  | none => throw (.missingEntity guid)

/-- The vertex set registered under a guid, which has to be in memory. -/
def vertexSet (guid : Guid) : VaultM VertexSet := do
  MonadExcept.ofExcept ((← require guid).asVertexSet guid)

/-- Whether different content may take the place of a registered entity. -/
def mayReplace (policy : CollisionPolicy) (registered offered : Entity) : Bool :=
  match policy, registered with
  | .reject, _ => false
  | .overwrite, .vertexSet set => offered.kind = .vertexSet && offered.size = set.size
  | .overwrite, _ => true

/-- Registers an entity that is known to fit. What is registered with the same content stays. -/
def register (guid : Guid) (entity : Entity) : VaultM Entity := do
  let vault ← get
  match vault.get? guid with
  | some registered =>
    if registered.sameContent entity then return registered
    if !mayReplace vault.settings.collision registered entity then throw (.collision guid)
  | none => pure ()
  set { vault with entities := vault.entities.insert guid entity }
  return entity

/-- Drops an entity from memory. -/
def remove (guid : Guid) : VaultM (Option Entity) := do
  let vault ← get
  set { vault with entities := vault.entities.erase guid }
  return vault.get? guid

/-! ### Loading -/

/-- The vertex set that an entity found by `find` is. -/
def resolveWith (find : Guid → VaultM Entity) (guid : Guid) : VaultM VertexSet := do
  MonadExcept.ofExcept ((← find guid).asVertexSet guid)

/-- Registers an entity that fits the vertex sets found by `find`. -/
def putWith (find : Guid → VaultM Entity) (guid : Guid) (entity : Entity) : VaultM Entity := do
  entity.validate guid (resolveWith find)
  register guid entity

/-- The entity registered under a guid, or else the one that `load` loads. -/
def findWith (load : Guid → VaultM Entity) (guid : Guid) : VaultM Entity := do
  let vault ← get
  match vault.get? guid with
  | some entity => return entity
  | none => if vault.hasPersisted guid then load guid else throw (.missingEntity guid)

/-- Reads an entity from disk and registers it, after the vertex sets it refers to. References are
followed at most `fuel` deep. -/
def loadWithin : (fuel : Nat) → Guid → VaultM Entity
  | 0, _ => throw (.aborted .referenceLoop)
  | fuel + 1, guid => do
    let vault ← get
    let stored ← MonadExcept.ofExcept
      (EntityDirectory.read vault.disk vault.settings.dataDir guid)
    stored.manifest.references.forM fun reference => do
      let _ ← findWith (loadWithin fuel) reference.guid
    let entity ← Ordered.decode stored vertexSet
    putWith (findWith (loadWithin fuel)) guid entity

/-- How deep references on a disk can go without a loop. -/
def depth (vault : Vault) : Nat := vault.disk.nodes.size + 1

/-- Reads an entity from disk and registers it. -/
def load (guid : Guid) : VaultM Entity := do loadWithin (← get).depth guid

/-- The entity registered under a guid, or else loaded from disk. -/
def getOrLoad (guid : Guid) : VaultM Entity := findWith load guid

/-- The vertex set registered under a guid, or else loaded from disk. -/
def resolve (guid : Guid) : VaultM VertexSet := resolveWith getOrLoad guid

/-- Registers an entity that fits the vertex sets it refers to. -/
def put (guid : Guid) (entity : Entity) : VaultM Entity := putWith getOrLoad guid entity

/-! ### Writing -/

/-- Changes the catalog, if there is one. -/
def modifyCatalog (change : Catalog → Catalog) : VaultM Unit :=
  modify fun vault =>
    match vault.catalog with
    | none => vault
    | some id =>
      { vault with disk := vault.disk.setCatalog id (change (vault.disk.catalog id)) }

/-- Writes an entity below a root; the answer is where. -/
def write (root : String) (stored : Stored) : VaultM String := do
  onDisk (EntityDirectory.write root stored)
  return EntityDirectory.path root stored.manifest.guid

/-- Records a persisted entity. A producer recorded before stays if none is given. -/
def record (guid : Guid) (entity : Entity) (producer : Option Guid) : VaultM Unit := do
  match (← get).records? with
  | none => return
  | some catalog =>
    let producer ← match producer with
      | some producer => pure (some producer)
      | none => do
        let entry ← MonadExcept.ofExcept (catalog.entity? guid)
        pure (entry.bind (·.producer))
    modifyCatalog (·.recordEntity ⟨guid, entity.kind, UInt64.ofNat entity.size, producer⟩)

/-- Writes the entity in memory to disk, after the vertex sets it refers to if they are not written
yet. References are followed at most `fuel` deep. -/
def persistWithin : (fuel : Nat) → Guid → Option Guid → VaultM String
  | 0, _, _ => throw (.aborted .referenceLoop)
  | fuel + 1, guid, producer => do
    let entity ← require guid
    entity.references.forM fun reference => do
      if !(← get).hasPersisted reference then
        let _ ← persistWithin fuel reference none
    let stored ← Ordered.encode guid entity resolve
    let path ← write (← get).settings.dataDir stored
    record guid entity producer
    return path

/-- Writes the entity in memory to disk, as the output of a producer if one is given. -/
def persistFrom (guid : Guid) (producer : Option Guid) : VaultM String := do
  persistWithin ((← get).entities.size + 1) guid producer

/-- Writes the entity in memory to disk. -/
def persist (guid : Guid) : VaultM String := persistFrom guid none

/-- Drops an entity from memory, disk and catalog; tells whether it was in memory or on disk. -/
def purge (guid : Guid) : VaultM Bool := do
  let inMemory := (← remove guid).isSome
  let vault ← get
  let persisted := vault.hasPersisted guid
  onDisk (EntityDirectory.remove vault.settings.dataDir guid)
  modifyCatalog (·.forgetEntity guid)
  return inMemory || persisted

/-! ### Exchange -/

/-- Writes an exchange copy of an entity. -/
def exportUnordered (guid : Guid) : VaultM String := do
  let entity ← getOrLoad guid
  let stored ← Unordered.encode guid entity resolve
  write (← get).settings.unorderedDir stored

/-- Reads an exchange copy and registers it, after those of the vertex sets it refers to where these
are not known otherwise. References are followed at most `fuel` deep. -/
def importWithin : (fuel : Nat) → Guid → VaultM Entity
  | 0, _ => throw (.aborted .referenceLoop)
  | fuel + 1, guid => do
    let vault ← get
    let root := vault.settings.unorderedDir
    let stored ← MonadExcept.ofExcept (EntityDirectory.read vault.disk root guid)
    stored.manifest.references.forM fun reference => do
      let vault ← get
      let known := vault.has reference.guid || vault.hasPersisted reference.guid
      if !known && EntityDirectory.contains vault.disk root reference.guid then
        let _ ← importWithin fuel reference.guid
    let entity ← Unordered.decode stored resolve
    put guid entity

/-- Reads an exchange copy and registers it. -/
def importUnordered (guid : Guid) : VaultM Entity := do importWithin (← get).depth guid

end Vault

end GraphVault
