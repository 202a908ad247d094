import GraphVault.Proofs.Operations

/-!
# What is computed is denoted

An operation that runs on what its input guids denote hands over what its output guids denote.
-/

namespace GraphVault

/-- The inputs of an instance that hold what its input guids denote. -/
def Resolved (executed : Instance → Prop) (i : Instance)
    (inputs : SortedMap String (Guid × Entity)) : Prop :=
  ∀ slot guid entity, inputs.get? slot = some (guid, entity) →
    i.inputs.get? slot = some guid ∧ (meaning executed).Means guid entity

/-- What an output slot of an instance may hold. -/
def Output (executed : Instance → Prop) (i : Instance) (slot : String) (entity : Entity) : Prop :=
  ∀ guid, i.outputs.get? slot = some guid → Denotes executed guid entity

variable {executed : Instance → Prop} {i : Instance} {inputs : SortedMap String (Guid × Entity)}
  {slot : String} {input : Guid}

/-- A vertex set that is an input is the one that its guid denotes. -/
theorem Resolved.vertexSet (h : Unambiguous executed) (hinputs : Resolved executed i inputs)
    {set : VertexSet} (hinput : inputs.get? slot = some (input, .vertexSet set)) :
    i.inputs.get? slot = some input ∧ Denotes executed input (.vertexSet set) := by
  obtain ⟨hslot, assigned, hassigned, hsame⟩ := hinputs slot input _ hinput
  rw [Entity.sameContent_vertexSet_iff.1 (Entity.sameContent_symm hsame)] at hassigned
  exact ⟨hslot, (meaning_eq_some_iff h).1 hassigned⟩

theorem Resolved.edgeBundle (h : Unambiguous executed) (hinputs : Resolved executed i inputs)
    {bundle : EdgeBundle} (hinput : inputs.get? slot = some (input, .edgeBundle bundle)) :
    i.inputs.get? slot = some input ∧ Denotes executed input (.edgeBundle bundle) := by
  obtain ⟨hslot, assigned, hassigned, hsame⟩ := hinputs slot input _ hinput
  rw [Entity.sameContent_edgeBundle_iff.1 (Entity.sameContent_symm hsame)] at hassigned
  exact ⟨hslot, (meaning_eq_some_iff h).1 hassigned⟩

/-- What an operation makes of what is denoted is denoted. -/
theorem Makes.output (h : Unambiguous executed) (hi : Accepted executed i)
    (hinputs : Resolved executed i inputs) {entity : Entity} (hmakes : Makes i inputs slot entity) :
    Output executed i slot entity := by
  intro guid hslot
  cases hmakes with
  | exampleGraph hclass hvertices hpart => exact .exampleGraph hi hclass hvertices hpart hslot
  | constantColumn hclass hvalue hinput =>
    obtain ⟨hguid, hset⟩ := hinputs.vertexSet h hinput
    exact .constantColumn hi hclass hvalue hguid hset hslot
  | reverseEdges hclass hinput =>
    obtain ⟨hguid, hbundle⟩ := hinputs.edgeBundle h hinput
    exact .reverseEdges hi hclass hguid hbundle hslot

/-- The built-in operations compute what is denoted. -/
theorem computes_run (h : Unambiguous executed) (hi : Accepted executed i)
    (hinputs : Resolved executed i inputs) :
    Computes Failure.OfOperation (Context.Serves i (Output executed i))
      (Registry.builtin.run i.description (Context.start i inputs)) :=
  (makes_run i inputs).mono fun _ hserves =>
    hserves.mono fun _ _ hmakes => hmakes.output h hi hinputs

end GraphVault
