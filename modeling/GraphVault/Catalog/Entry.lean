import GraphVault.Guid.Codec
import GraphVault.Kind

/-!
# Catalog entries

What a catalog records about a persisted entity.
-/

namespace GraphVault.Catalog

/-- The record of a persisted entity. -/
structure Entry where
  guid : Guid
  kind : Kind
  /-- The number of vertices, edges or cells. -/
  size : UInt64
  /-- The instance it is an output of, if any. -/
  producer : Option Guid
  deriving DecidableEq

/-- Entries on the wire. -/
def Entry.codec : Wire.Codec Entry :=
  (Guid.codec.pair (Kind.codec.pair (Wire.Codec.word.pair Guid.codec.optional))).via
    (fun e => (e.guid, e.kind, e.size, e.producer))
    fun (guid, kind, size, producer) => .ok ⟨guid, kind, size, producer⟩

end GraphVault.Catalog
