import GraphVault.Catalog.Entry
import GraphVault.Operation.Instance

/-!
# Catalogs

A catalog records which instances were executed and which entities were persisted: two tables from
the texts of guids to wire forms. Both tables are listed in the order of guids.
-/

namespace GraphVault

/-- The two tables of a catalog. -/
structure Catalog where
  instances : SortedMap String Bytes
  entities : SortedMap String Bytes
  deriving DecidableEq

namespace Catalog

/-- The catalog without records. -/
def empty : Catalog := ⟨SortedMap.empty, SortedMap.empty⟩

/-- Records an executed instance, in place of an earlier record under its guid. -/
def recordInstance (catalog : Catalog) (i : Instance) : Catalog :=
  { catalog with instances := catalog.instances.insert i.guid.text (Instance.codec.encode i) }

/-- Records a persisted entity, in place of an earlier record under its guid. -/
def recordEntity (catalog : Catalog) (entry : Entry) : Catalog :=
  { catalog with entities := catalog.entities.insert entry.guid.text (Entry.codec.encode entry) }

/-- Forgets the record of an entity. -/
def forgetEntity (catalog : Catalog) (guid : Guid) : Catalog :=
  { catalog with entities := catalog.entities.erase guid.text }

/-- Reads a record of a table. -/
def readRecord {α : Type} (codec : Wire.Codec α) (key : String) (bytes : Bytes) :
    Except Failure α :=
  match codec.read bytes with
  | .ok a => .ok a
  | .error fault => .error (.serialization (.catalogEntry key fault))

/-- The record of a guid in a table. -/
def find {α : Type} (codec : Wire.Codec α) (table : SortedMap String Bytes) (guid : Guid) :
    Except Failure (Option α) :=
  match table.get? guid.text with
  | none => .ok none
  | some bytes => some <$> readRecord codec guid.text bytes

/-- All records of a table. -/
def list {α : Type} (codec : Wire.Codec α) (table : SortedMap String Bytes) :
    Except Failure (List α) :=
  table.entries.mapM fun (key, bytes) => readRecord codec key bytes

/-- The instance recorded under a guid. -/
def instance? (catalog : Catalog) (guid : Guid) : Except Failure (Option Instance) :=
  find Instance.codec catalog.instances guid

/-- The record of an entity. -/
def entity? (catalog : Catalog) (guid : Guid) : Except Failure (Option Entry) :=
  find Entry.codec catalog.entities guid

/-- All recorded instances. -/
def listInstances (catalog : Catalog) : Except Failure (List Instance) :=
  list Instance.codec catalog.instances

/-- All records of entities. -/
def listEntities (catalog : Catalog) : Except Failure (List Entry) :=
  list Entry.codec catalog.entities

end Catalog

end GraphVault
