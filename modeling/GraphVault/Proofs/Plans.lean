import GraphVault.Proofs.ContentAddressing
import GraphVault.Proofs.Grounding
import GraphVault.Proofs.References

/-!
# Plans do not get stuck

A step of a plan can only refer to outputs of earlier steps. So a plan whose inputs are all written
as outputs of steps has no circles, and a run of it over an empty store finds whatever it needs: it
fails only if an operation does not get along with its inputs or its declared outputs.
-/

namespace GraphVault

namespace Plan

variable {registry : Registry} {scope : Scope} {plan : Plan} {planned : List PlannedStep}
  {before : List Instance}

/-- All inputs are written as outputs of steps. -/
def StepWise (plan : Plan) : Prop :=
  ∀ step ∈ plan.steps, ∀ slot reference, step.inputs.get? slot = some reference →
    ∃ name output, reference = name ++ "." ++ output

/-- The outputs in scope are those of earlier instances. -/
private theorem bind_backward {steps : List Step} (h : bind registry scope steps = .ok planned)
    (hscope : ∀ name slots, scope.get? name = some slots → ∃ j ∈ before, j.outputs = slots)
    (hsteps : ∀ step ∈ steps, ∀ slot reference, step.inputs.get? slot = some reference →
      ∃ name output, reference = name ++ "." ++ output) :
    ∀ front i back, planned.map (·.planned) = front ++ i :: back →
      ∀ input ∈ i.inputs.values, ∃ j ∈ before ++ front, input ∈ j.outputs.values := by
  induction steps generalizing scope before planned with
  | nil =>
    cases h
    intro front i back hsplit
    cases front <;> cases hsplit
  | cons step steps ih =>
    obtain ⟨first, rest, rfl, -, hstep, hrest⟩ := bind_cons_eq_ok_iff.1 h
    intro front i back hsplit input hinput
    cases front with
    | nil =>
      cases hsplit
      obtain ⟨slot, hslot⟩ := Instance.mem_values_iff.1 hinput
      have hbound := hstep.bound slot
      rw [hslot] at hbound
      obtain ⟨reference, hreference, hresolve⟩ := hbound.exists_reference
      obtain ⟨name, output, rfl⟩ := hsteps step List.mem_cons_self slot reference hreference
      rw [resolve_eq_ok_iff, Guid.parse?_of_dot (by simp)] at hresolve
      obtain ⟨earlier, slot', -, -, slots, hslots, hguid⟩ := hresolve.resolve_left nofun
      obtain ⟨j, hj, rfl⟩ := hscope earlier slots hslots
      exact ⟨j, List.mem_append_left _ hj, Instance.mem_values_iff.2 ⟨slot', hguid⟩⟩
    | cons head front =>
      obtain ⟨rfl, htail⟩ := List.cons.inj hsplit
      have hscope' : ∀ name slots, (scope.insert step.name first.outputs).get? name = some slots →
          ∃ j ∈ before ++ [first], j.outputs = slots := by
        intro name slots hslots
        by_cases heq : name = step.name
        · rw [heq, SortedMap.get?_insert_self, Option.some.injEq] at hslots
          exact ⟨first, List.mem_append_right _ (List.mem_singleton_self first), hslots⟩
        · rw [SortedMap.get?_insert_of_ne _ _ heq] at hslots
          obtain ⟨j, hj, hj'⟩ := hscope name slots hslots
          exact ⟨j, List.mem_append_left _ hj, hj'⟩
      have hlater := ih hrest hscope' fun other hother =>
        hsteps other (List.mem_cons_of_mem step hother)
      rw [List.append_cons]
      exact hlater front i back htail input hinput

theorem StepWise.backward (hplan : plan.StepWise) (h : plan.instantiate registry = .ok planned) :
    Dag.Backward (planned.map (·.planned)) := by
  intro front i back hsplit input hinput
  have hproducer : ∃ j ∈ [] ++ front, input ∈ j.outputs.values :=
    bind_backward h nofun hplan front i back hsplit input hinput
  exact hproducer

/-- A column of texts over the vertex set of the example graph. -/
def columnInstance : Instance :=
  .derive ⟨"AddConstantStringAttribute", Wire.Codec.text.encode "x"⟩
    (SortedMap.ofList [("vs", Session.exampleVertices)]) ["attr"]

theorem compatible_sample : Dag.Compatible [Session.exampleInstance, columnInstance] := by
  have hguid : columnInstance.guid
      = Session.digits "9ea6d3aca255a96469e710963374789907d25376fe169b4c67732f5aa3c132ce" :=
    Guid.Names.eq (by decide +kernel)
  have hattr : Derivation.outputGuid columnInstance.guid "attr"
      = Session.digits "ec6dd7806089c943a7c80f79206c5daae98d9b967f92279ad0c08f12f4f51c83" := by
    rw [hguid]
    exact Guid.Names.eq (by decide +kernel)
  have houtputs : columnInstance.outputs.values
      = [Session.digits "ec6dd7806089c943a7c80f79206c5daae98d9b967f92279ad0c08f12f4f51c83"] := by
    rw [← hattr]
    rfl
  have hdistinct : Session.exampleInstance.guid ≠ columnInstance.guid := by
    rw [hguid]
    decide +kernel
  have hapart : ∀ output ∈ Session.exampleInstance.outputs.values,
      output ∉ columnInstance.outputs.values := by
    rw [houtputs]
    decide +kernel
  refine Dag.compatible_pair ?_ ?_ hdistinct hapart
  · exact Dag.compatible_single Session.verify_exampleInstance
      (List.nodup_cons.1 Session.distinct_exampleInstance).2
  · refine Dag.compatible_single (Instance.verify_derive _ _ _) ?_
    rw [houtputs]
    exact List.nodup_singleton _

end Plan

end GraphVault
