import GraphVault.Entity.VertexSet
import GraphVault.Format.Header

/-!
# Manifests

A manifest describes one stored entity: what it is, how many rows it has, and the vertex sets its
positions point into with the sizes they had when it was written.
-/

namespace GraphVault

/-- A vertex set that an entity depends on, with its size. -/
structure Reference where
  guid : Guid
  size : UInt64
  deriving DecidableEq

/-- References on the wire. -/
def Reference.codec : Wire.Codec Reference :=
  (Guid.codec.pair Wire.Codec.word).via (fun r => (r.guid, r.size))
    fun (guid, size) => .ok ⟨guid, size⟩

/-- The description of a stored entity. Vertex sets refer to nothing, columns to their set, edge
bundles to the sets of their sources and destinations. -/
structure Manifest where
  guid : Guid
  kind : Kind
  rowCount : UInt64
  references : List Reference
  deriving DecidableEq

namespace Manifest

/-- The largest row count that a manifest may declare. -/
def maxRows : Nat := 2 ^ 32

/-- Manifests on the wire. -/
def codec : Wire.Codec Manifest :=
  (Guid.codec.pair (Kind.codec.pair (Wire.Codec.word.pair Reference.codec.list))).via
    (fun m => (m.guid, m.kind, m.rowCount, m.references))
    fun (guid, kind, rowCount, references) => .ok ⟨guid, kind, rowCount, references⟩

/-- The bytes of a manifest file. -/
def encode (manifest : Manifest) : Bytes := Header.bytes ++ codec.encode manifest

/-- Reads the manifest file that is stored for a guid. -/
def decode (bytes : Bytes) (guid : Guid) : Except Failure Manifest := do
  let payload ← Header.strip bytes
  match codec.read payload with
  | .error fault => throw (.serialization (.manifest guid fault))
  | .ok manifest =>
    if manifest.guid ≠ guid then throw (.serialization (.foreignManifest manifest.guid guid))
    if maxRows < manifest.rowCount.toNat then
      throw (.serialization (.rowCount manifest.rowCount.toNat maxRows))
    return manifest

/-- The reference at an index, which the kind of the entity requires. -/
def reference (manifest : Manifest) (index : Nat) : Except Failure Reference :=
  match manifest.references[index]? with
  | some reference => .ok reference
  | none => .error (.serialization (.reference manifest.kind manifest.guid index))

end Manifest

/-- A manifest with the row file that belongs to it. -/
structure Stored where
  manifest : Manifest
  rows : Bytes
  deriving DecidableEq

/-- Resolves a reference of the entity `guid` and checks that the set has its recorded size. -/
def Reference.resolve {m : Type → Type} [Monad m] [MonadExceptOf Failure m] (reference : Reference)
    (guid : Guid) (resolve : Guid → m VertexSet) : m VertexSet := do
  let set ← resolve reference.guid
  if set.size ≠ reference.size.toNat then
    throw (.lengthMismatch guid "vertex_set" set.size reference.size.toNat)
  return set

end GraphVault
