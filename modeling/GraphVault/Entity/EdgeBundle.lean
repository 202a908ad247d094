import GraphVault.Entity.Check
import GraphVault.Entity.VertexSet

/-!
# Edge bundles

Edges as parallel columns: the positions of their ends in a source and a destination vertex set,
and their edge ids.
-/

namespace GraphVault

/-- Edges between two vertex sets. -/
structure EdgeBundle where
  sources : List UInt64
  destinations : List UInt64
  ids : List Int64
  sourceSet : Guid
  destinationSet : Guid
  deriving DecidableEq

/-- One edge: the positions of its ends and its id. -/
structure Edge where
  source : UInt64
  destination : UInt64
  id : Int64
  deriving DecidableEq

namespace EdgeBundle

/-- The bundle that consists of the given edges. -/
def ofEdges (sourceSet destinationSet : Guid) (edges : List Edge) : EdgeBundle :=
  ⟨edges.map (·.source), edges.map (·.destination), edges.map (·.id), sourceSet, destinationSet⟩

/-- The number of edges. -/
def size (bundle : EdgeBundle) : Nat := bundle.ids.length

/-- Whether both ends lie in one vertex set. -/
def isHomogeneous (bundle : EdgeBundle) : Bool := bundle.sourceSet = bundle.destinationSet

/-- The edges, as far as all three columns go. -/
def edges (bundle : EdgeBundle) : List Edge :=
  ((bundle.sources.zip bundle.destinations).zip bundle.ids).map
    fun ((source, destination), id) => ⟨source, destination, id⟩

/-- The bundle with the two ends of every edge exchanged. -/
def reverse (bundle : EdgeBundle) : EdgeBundle where
  sources := bundle.destinations
  destinations := bundle.sources
  ids := bundle.ids
  sourceSet := bundle.destinationSet
  destinationSet := bundle.sourceSet

/-- Accepts columns of one length whose positions lie inside the two vertex sets. -/
def validate (bundle : EdgeBundle) (guid : Guid) (source destination : VertexSet) :
    Except Failure Unit := do
  Check.length guid "src" bundle.size bundle.sources.length
  Check.length guid "dst" bundle.size bundle.destinations.length
  Check.positions guid "src" source.size bundle.sources
  Check.positions guid "dst" destination.size bundle.destinations

theorem reverse_reverse (bundle : EdgeBundle) : bundle.reverse.reverse = bundle := rfl

theorem edges_ofEdges (sourceSet destinationSet : Guid) (edges : List Edge) :
    (ofEdges sourceSet destinationSet edges).edges = edges := by
  simp only [EdgeBundle.edges, ofEdges, List.zip_map', List.map_map]
  exact List.map_id'' (fun _ => rfl) edges

end EdgeBundle

end GraphVault
