import GraphVault.Operation.Instance

/-!
# Dependency graphs of instances

An instance depends on another when one of its inputs is an output of the other. `Dag.waves` layers
a set of instances: every instance comes in the first wave that follows all its dependencies, and
the instances of a wave come in the order of their guids.
-/

namespace GraphVault

/-- Verified instances by guid, and the producer of every output guid. -/
structure Dag where
  instances : SortedMap Guid Instance
  producers : SortedMap Guid Guid
  deriving DecidableEq

namespace Dag

/-- The graph without instances. -/
def empty : Dag := ⟨SortedMap.empty, SortedMap.empty⟩

/-- Records the producer of outputs, none of which may have one already. -/
def claim (producer : Guid) : List Guid → SortedMap Guid Guid → Except Failure (SortedMap Guid Guid)
  | [], producers => .ok producers
  | output :: outputs, producers =>
    if producers.contains output then .error (.collision output)
    else claim producer outputs (producers.insert output producer)

/-- Adds an instance. One that is there already changes nothing; another one of the same guid, or
with an output that is produced already, collides. -/
def add (dag : Dag) (i : Instance) : Except Failure Dag := do
  i.verify
  match dag.instances.get? i.guid with
  | some other => if other = i then return dag else throw (.collision i.guid)
  | none =>
    let producers ← claim i.guid i.outputs.values dag.producers
    return ⟨dag.instances.insert i.guid i, producers⟩

/-- The graph of a list of instances. -/
def ofList (instances : List Instance) : Except Failure Dag := instances.foldlM add empty

/-- The number of distinct instances. -/
def size (dag : Dag) : Nat := dag.instances.size

/-- The guids of the instances whose outputs an instance takes, in order and each once. -/
def dependencies (dag : Dag) (i : Instance) : List Guid :=
  (SortedMap.ofList (i.inputs.values.filterMap fun input =>
    (dag.producers.get? input).map fun producer => (producer, ()))).keys

/-- The guids of the instances that take outputs of an instance, in order. -/
def dependents (dag : Dag) (guid : Guid) : List Guid :=
  dag.instances.entries.filterMap fun (dependent, i) =>
    if guid ∈ dag.dependencies i then some dependent else none

/-- How many dependencies each instance still waits for, and which instances just became ready. -/
structure Progress where
  pending : SortedMap Guid Nat
  ready : SortedMap Guid Unit

/-- Takes one dependency off an instance. -/
def Progress.release (progress : Progress) (dependent : Guid) : Progress :=
  match progress.pending.get? dependent with
  | none => progress
  | some count =>
    { pending := progress.pending.insert dependent (count - 1)
      ready := if count - 1 = 0 then progress.ready.insert dependent () else progress.ready }

/-- What every instance waits for before anything has run. -/
def waiting (dag : Dag) : SortedMap Guid Nat :=
  SortedMap.ofList (dag.instances.entries.map fun (guid, i) => (guid, (dag.dependencies i).length))

/-- The progress that a finished wave makes. -/
def advance (dag : Dag) (pending : SortedMap Guid Nat) (wave : List Guid) : Progress :=
  (wave.flatMap dag.dependents).foldl Progress.release ⟨pending, SortedMap.empty⟩

/-- The waves from a wave that is ready, of which there are at most `fuel`, and what is pending
after them. -/
def layers (dag : Dag) : Nat → SortedMap Guid Nat → List Guid →
    List (List Guid) × SortedMap Guid Nat
  | 0, pending, _ => ([], pending)
  | fuel + 1, pending, wave =>
    if wave.isEmpty then ([], pending)
    else
      let progress := dag.advance pending wave
      let (waves, pending) := layers dag fuel progress.pending progress.ready.keys
      (wave :: waves, pending)

/-- The instances in waves. A circle is reported by the smallest guid that no wave holds. -/
def waves (dag : Dag) : Except Failure (List (List Instance)) :=
  let waiting := dag.waiting
  let ready := (waiting.filter fun _ count => count = 0).keys
  let (waves, pending) := dag.layers (dag.size + 1) waiting ready
  match pending.entries.find? fun (_, count) => 0 < count with
  | some (guid, _) => .error (.cycle guid)
  | none => .ok (waves.map (·.filterMap dag.instances.get?))

end Dag

end GraphVault
