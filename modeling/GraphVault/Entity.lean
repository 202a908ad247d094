import GraphVault.Entity.Attribute
import GraphVault.Entity.EdgeBundle

/-!
# Entities

An entity is a vertex set, or edges or an attribute column whose positions point into vertex sets
that it names by guid. Checks that need those sets take a function that resolves a guid, in any
monad that can fail.
-/

namespace GraphVault

/-- Anything that is stored under a guid. -/
inductive Entity where
  | vertexSet (set : VertexSet)
  | edgeBundle (bundle : EdgeBundle)
  | column (type : ColumnType) (cells : Attribute type.Cell)
  deriving DecidableEq

namespace Entity

/-- The kind of an entity. -/
def kind : Entity → Kind
  | vertexSet _ => .vertexSet
  | edgeBundle _ => .edgeBundle
  | column type _ => .column type

/-- The number of vertices, edges or cells. -/
def size : Entity → Nat
  | vertexSet set => set.size
  | edgeBundle bundle => bundle.size
  | column _ cells => cells.size

/-- The vertex sets that an entity refers to, each once. -/
def references : Entity → List Guid
  | vertexSet _ => []
  | edgeBundle bundle =>
    if bundle.isHomogeneous then [bundle.sourceSet] else [bundle.sourceSet, bundle.destinationSet]
  | column _ cells => [cells.vertexSet]

/-- The place in the order of publication: vertex sets come before what refers to them. -/
def publishRank : Entity → Nat
  | vertexSet _ => 0
  | _ => 1

/-- Accepts an entity that fits the vertex sets it refers to. -/
def validate {m : Type → Type} [Monad m] [MonadExceptOf Failure m] (entity : Entity) (guid : Guid)
    (resolve : Guid → m VertexSet) : m Unit := do
  match entity with
  | vertexSet set => MonadExcept.ofExcept (set.validate guid)
  | edgeBundle bundle =>
    let source ← resolve bundle.sourceSet
    let destination ← resolve bundle.destinationSet
    MonadExcept.ofExcept (bundle.validate guid source destination)
  | column _ cells =>
    let set ← resolve cells.vertexSet
    MonadExcept.ofExcept (cells.validate guid set)

/-- Whether two entities have the same content. -/
def sameContent : Entity → Entity → Bool
  | vertexSet set, vertexSet other => set = other
  | edgeBundle bundle, edgeBundle other => bundle = other
  | column type cells, column otherType other =>
    if h : otherType = type then cells.sameContent (h ▸ other) else false
  | _, _ => false

/-- The failure of an entity that is not of the kind that is needed. -/
def mismatch (entity : Entity) (guid : Guid) (expected : Kind) : Failure :=
  .kindMismatch guid expected entity.kind

/-- Accepts an entity of a kind. -/
def requireKind (entity : Entity) (guid : Guid) (expected : Kind) : Except Failure Unit :=
  if entity.kind = expected then .ok () else .error (entity.mismatch guid expected)

/-- The vertex set that an entity is. -/
def asVertexSet (entity : Entity) (guid : Guid) : Except Failure VertexSet :=
  match entity with
  | vertexSet set => .ok set
  | other => .error (other.mismatch guid .vertexSet)

/-- The edge bundle that an entity is. -/
def asEdgeBundle (entity : Entity) (guid : Guid) : Except Failure EdgeBundle :=
  match entity with
  | edgeBundle bundle => .ok bundle
  | other => .error (other.mismatch guid .edgeBundle)

end Entity

end GraphVault
