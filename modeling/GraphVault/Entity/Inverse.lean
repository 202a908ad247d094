import GraphVault.Entity.VertexSet
import GraphVault.SortedMap

/-!
# Inverses of vertex sets

The inverse of a vertex set has the positions by external id. It is made when it is first needed, by
a look-up, or when the set is first accepted by a check, and stays as it was made.
-/

namespace GraphVault

/-- Positions by external id. -/
abbrev Inverse := SortedMap Int64 Nat

namespace Inverse

/-- The map with the positions of ids, counted from `position`; of two positions of one id the later
counts. -/
def collect (inverse : Inverse) (position : Nat) : List Int64 → Inverse
  | [] => inverse
  | id :: rest => collect (inverse.insert id position) (position + 1) rest

/-- The map with the positions of ids, all of which have to be new to it. -/
def collectNew (guid : Guid) (inverse : Inverse) (position : Nat) :
    List Int64 → Except Failure Inverse
  | [] => .ok inverse
  | id :: rest =>
    if inverse.contains id then .error (.duplicateExternalId guid id)
    else collectNew guid (inverse.insert id position) (position + 1) rest

end Inverse

/-- Work on a vertex set whose inverse may have been made. -/
abbrev InverseM := StateM (Option Inverse)

namespace InverseM

/-- The inverse of a vertex set, made now if it was not made before. -/
def inverse (vertices : VertexSet) : InverseM Inverse := do
  match ← get with
  | some made => return made
  | none =>
    let made := Inverse.collect SortedMap.empty 0 vertices.mapping
    set (some made)
    return made

/-- The position of an external id. -/
def positionOf (vertices : VertexSet) (id : Int64) : InverseM (Option Nat) := do
  return (← inverse vertices).get? id

/-- Accepts a set whose external ids are distinct. What is accepted has its inverse afterwards. -/
def validate (vertices : VertexSet) (guid : Guid) : InverseM (Except Failure Unit) := do
  match Inverse.collectNew guid SortedMap.empty 0 vertices.mapping with
  | .error failure => return .error failure
  | .ok made =>
    modify fun before => some (before.getD made)
    return .ok ()

end InverseM

namespace VertexSet

/-- What may be asked of a vertex set. -/
inductive Call where
  | positionOf (id : Int64)
  | externalId (position : Nat)
  | validate (guid : Guid)

/-- What a vertex set answers. -/
inductive Answer where
  | position (position : Option Nat)
  | id (id : Option Int64)
  | verdict (verdict : Except Failure Unit)

namespace Call

/-- The answer, as the mapping alone gives it. -/
def answer (vertices : VertexSet) : Call → Answer
  | positionOf id => .position (vertices.positionOf id)
  | externalId position => .id (vertices.externalId position)
  | validate guid => .verdict (vertices.validate guid)

/-- The answer, by the inverse where there is need of it. -/
def perform (vertices : VertexSet) : Call → InverseM Answer
  | positionOf id => return .position (← InverseM.positionOf vertices id)
  | externalId position => return .id (vertices.externalId position)
  | validate guid => return .verdict (← InverseM.validate vertices guid)

end Call

end VertexSet

end GraphVault
