import GraphVault.Catalog.Entry
import GraphVault.Format.Manifest
import GraphVault.Json.Shape
import GraphVault.Operation.Instance
import GraphVault.Settings

/-!
# JSON documents

The JSON forms of the types that are stored or exchanged. Guids are texts, kinds are tags, records
are objects with a key for each field.
-/

namespace GraphVault

open Json (Reading Mismatch Record)

/-- The object of slots and guids. -/
def Slots.toJson (slots : Slots) : Json :=
  .object (slots.entries.map fun (slot, guid) => (slot, .text guid.text))

namespace Json

/-- A guid from its text. -/
def asGuid (json : Json) : Reading Guid := do
  let s ← json.asText
  match Guid.parse? s with
  | some guid => return guid
  | none => throw (.value json.describe "a guid")

/-- A kind from its tag. -/
def asKind (json : Json) : Reading Kind := do
  let tag ← json.asVariant
  match Kind.all.find? (·.tag = tag) with
  | some kind => return kind
  | none => throw (.unknownVariant tag)

/-- An unsigned 64-bit word. -/
def asWord (json : Json) : Reading UInt64 := UInt64.ofNat <$> json.asNatural (2 ^ 64 - 1)

/-- A byte string from an array of numbers below 256. -/
def asBytes : Json → Reading Bytes := asList fun json => UInt8.ofNat <$> json.asNatural 255

/-- Guids by slot. -/
def asSlots (json : Json) : Reading Slots := SortedMap.ofList <$> json.asMap asGuid

/-- A collision policy from its name. -/
def asPolicy (json : Json) : Reading CollisionPolicy := do
  let name ← json.asVariant
  match CollisionPolicy.ofName? name with
  | some policy => return policy
  | none => throw (.unknownVariant name)

/-- A byte string as an array of numbers. -/
def ofBytes (bytes : Bytes) : Json := .list (bytes.map fun b => ofNat b.toNat)

end Json

namespace Description

/-- The JSON form of a description. -/
def toJson (d : Description) : Json :=
  .object [("class", .text d.className), ("params", Json.ofBytes d.params)]

/-- Reads a description. -/
def ofJson (json : Json) : Reading Description := do
  let record ← json.asRecord "OperationDescription" 2
  let className ← (← record.field 0 "class").asText
  let params ← (← record.field 1 "params").asBytes
  record.finish
  return { className, params }

end Description

namespace Instance

/-- The JSON form of an instance. -/
def toJson (i : Instance) : Json :=
  .object [("guid", .text i.guid.text), ("inputs", i.inputs.toJson),
    ("outputs", i.outputs.toJson), ("operation", i.description.toJson)]

/-- Reads an instance. -/
def ofJson (json : Json) : Reading Instance := do
  let record ← json.asRecord "OperationInstance" 4
  let guid ← (← record.field 0 "guid").asGuid
  let inputs ← (← record.field 1 "inputs").asSlots
  let outputs ← (← record.field 2 "outputs").asSlots
  let description ← Description.ofJson (← record.field 3 "operation")
  record.finish
  return { guid, inputs, outputs, description }

end Instance

namespace Reference

/-- The JSON form of a reference. -/
def toJson (r : Reference) : Json :=
  .object [("guid", .text r.guid.text), ("size", Json.ofNat r.size.toNat)]

/-- Reads a reference. -/
def ofJson (json : Json) : Reading Reference := do
  let record ← json.asRecord "VertexSetRef" 2
  let guid ← (← record.field 0 "guid").asGuid
  let size ← (← record.field 1 "size").asWord
  record.finish
  return { guid, size }

end Reference

namespace Manifest

/-- The JSON form of a manifest. -/
def toJson (m : Manifest) : Json :=
  .object [("guid", .text m.guid.text), ("kind", .text m.kind.tag),
    ("row_count", Json.ofNat m.rowCount.toNat),
    ("references", .list (m.references.map Reference.toJson))]

/-- Reads a manifest. -/
def ofJson (json : Json) : Reading Manifest := do
  let record ← json.asRecord "Manifest" 4
  let guid ← (← record.field 0 "guid").asGuid
  let kind ← (← record.field 1 "kind").asKind
  let rowCount ← (← record.field 2 "row_count").asWord
  let references ← (← record.field 3 "references").asList Reference.ofJson
  record.finish
  return { guid, kind, rowCount, references }

end Manifest

namespace Catalog.Entry

/-- The JSON form of a catalog entry. -/
def toJson (e : Catalog.Entry) : Json :=
  .object [("guid", .text e.guid.text), ("kind", .text e.kind.tag),
    ("len", Json.ofNat e.size.toNat),
    ("producer", match e.producer with
      | some guid => .text guid.text
      | none => .null)]

/-- Reads a catalog entry; an object without a producer has none. -/
def ofJson (json : Json) : Reading Catalog.Entry := do
  let record ← json.asRecord "CatalogEntry" 4
  let guid ← (← record.field 0 "guid").asGuid
  let kind ← (← record.field 1 "kind").asKind
  let size ← (← record.field 2 "len").asWord
  let producer ← ((← record.field? 3 "producer").getD .null).asOptional Json.asGuid
  record.finish
  return { guid, kind, size, producer }

end Catalog.Entry

namespace Settings

/-- Reads settings; what is not given is as in the default settings. -/
def ofJson (json : Json) : Reading Settings := do
  let record ← json.asRecord "StoreConfig" 5
  let dataDir ← (record.fieldD 0 "data_dir" (.text default.dataDir)).asText
  let unorderedDir ← (record.fieldD 1 "unordered_data_dir" (.text default.unorderedDir)).asText
  let collision ← (record.fieldD 2 "collision" (.text default.collision.name)).asPolicy
  let persistOutputs ←
    (record.fieldD 3 "persist_outputs" (.boolean default.persistOutputs)).asBoolean
  let catalog ← (record.fieldD 4 "catalog" (.boolean default.catalog)).asBoolean
  record.finish
  return { dataDir, unorderedDir, collision, persistOutputs, catalog }

end Settings

end GraphVault
