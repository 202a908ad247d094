import GraphVault.Operation.Builtin
import GraphVault.Proofs.Derivation
import GraphVault.Proofs.References

/-!
# Outputs that can be referred to

A step refers to an output of an earlier step by the name of that step, a dot and the slot. This
reaches every declared output of the steps whose names have no dot, and of these steps only: where a
name has a dot, what stands before the dot is taken for the name of another step
(`Plan.outputs_reached`).
-/

namespace GraphVault

theorem Instance.get?_outputs_derive (description : Description) (inputs : Slots)
    {slots : List String} {slot : String} (h : slot ∈ slots) :
    (derive description inputs slots).outputs.get? slot
      = some (Derivation.outputGuid (derive description inputs slots).guid slot) := by
  have hdeclared : (derive description inputs slots).outputs.contains slot :=
    SortedMap.contains_ofList_iff.2 (by simpa using h)
  obtain ⟨guid, hguid⟩ := Option.isSome_iff_exists.1 hdeclared
  rw [hguid, (verify_eq_ok_iff.1 (verify_derive description inputs slots)).2 slot guid hguid]

namespace Plan

variable {registry : Registry} {scope : Scope} {step : Step} {i : Instance} {guid : Guid}
  {name reference : String} {steps front back : List Step} {plan : Plan}
  {planned all : List PlannedStep}

theorem Becomes.get?_outputs (h : Becomes registry scope step i) {output : String}
    (houtput : output ∈ step.outputs) :
    i.outputs.get? output = some (Derivation.outputGuid i.guid output) := by
  have hderive := Instance.get?_outputs_derive i.description i.inputs houtput
  rwa [← h.derived] at hderive

theorem length_bind (h : bind registry scope steps = .ok planned) :
    planned.length = steps.length := by
  induction steps generalizing scope planned with
  | nil =>
    cases h
    rfl
  | cons step steps ih =>
    obtain ⟨i, later, rfl, -, -, hlater⟩ := bind_cons_eq_ok_iff.1 h
    rw [List.length_cons, List.length_cons, ih hlater]

/-- The step at a position becomes the instance at this position. -/
theorem getElem?_bind (h : bind registry scope steps = .ok planned) {k : Nat}
    (hstep : steps[k]? = some step) : ∃ i, planned[k]? = some ⟨step.name, i⟩ ∧
      Becomes registry (withOutputs scope (planned.take k)) step i := by
  induction steps generalizing scope planned k with
  | nil => cases hstep
  | cons first steps ih =>
    obtain ⟨i, later, rfl, -, hfirst, hlater⟩ := bind_cons_eq_ok_iff.1 h
    cases k with
    | zero =>
      cases hstep
      exact ⟨i, rfl, hfirst⟩
    | succ k => exact ih hlater hstep

/-- Exactly the outputs of the steps whose names have no dot can be referred to. -/
theorem resolve_withOutputs_iff (h : instantiate ⟨steps⟩ registry = .ok planned) :
    resolve (withOutputs SortedMap.empty planned) reference = .ok guid ↔
      Guid.parse? reference = some guid ∨ ∃ p ∈ planned, '.' ∉ p.name.toList ∧
        ∃ output, reference = p.name ++ "." ++ output ∧ p.planned.outputs.get? output = some guid := by
  rw [resolve_eq_ok_iff]
  refine or_congr_right ?_
  simp only [offers_withOutputs_iff h, not_offers_empty, false_or]
  constructor
  · rintro ⟨name, output, rfl, hname, p, hp, rfl, hguid⟩
    exact ⟨p, hp, hname, output, rfl, hguid⟩
  · rintro ⟨p, hp, hname, output, rfl, hguid⟩
    exact ⟨p.name, output, rfl, hname, p, hp, rfl, hguid⟩

/-- A step that is made into an instance finds the outputs of the steps before it. -/
theorem bound_of_instantiate (hplan : plan.steps = front ++ step :: back)
    (hfront : instantiate ⟨front⟩ registry = .ok planned)
    (hall : plan.instantiate registry = .ok all) : ∃ j, all[front.length]? = some ⟨step.name, j⟩ ∧
      ∀ slot, Bound (withOutputs SortedMap.empty planned) (step.inputs.get? slot)
        (j.inputs.get? slot) := by
  rw [instantiate, hplan] at hall
  obtain ⟨first, later, rfl, hfirst, hlater⟩ := bind_append_eq_ok_iff.1 hall
  cases hfront.symm.trans hfirst
  obtain ⟨j, rest, rfl, -, hj, -⟩ := bind_cons_eq_ok_iff.1 hlater
  refine ⟨j, ?_, hj.bound⟩
  rw [← length_bind hfront]
  simp

/-- Before every step, exactly the outputs of the earlier steps whose names have no dot can be
referred to, and each of them is reached by its name and slot. -/
theorem outputs_reached (hplan : plan.steps = front ++ step :: back)
    (hfront : instantiate ⟨front⟩ registry = .ok planned) :
    (∀ reference guid, resolve (withOutputs SortedMap.empty planned) reference = .ok guid ↔
      Guid.parse? reference = some guid ∨ ∃ p ∈ planned, '.' ∉ p.name.toList ∧
        ∃ output, reference = p.name ++ "." ++ output ∧ p.planned.outputs.get? output = some guid) ∧
    ∀ (k : Nat) earlier output, front[k]? = some earlier → output ∈ earlier.outputs →
      '.' ∉ earlier.name.toList → ∃ i, planned[k]? = some ⟨earlier.name, i⟩ ∧
        resolve (withOutputs SortedMap.empty planned) (earlier.name ++ "." ++ output)
          = .ok (Derivation.outputGuid i.guid output) ∧
        ∀ slot, step.inputs.get? slot = some (earlier.name ++ "." ++ output) →
          ∀ all, plan.instantiate registry = .ok all →
            ∃ j, all[front.length]? = some ⟨step.name, j⟩ ∧
              j.inputs.get? slot = some (Derivation.outputGuid i.guid output) := by
  refine ⟨fun _ _ => resolve_withOutputs_iff hfront, fun k earlier output hk houtput hname => ?_⟩
  obtain ⟨i, hi, hbecomes⟩ := getElem?_bind hfront hk
  have hresolve := (resolve_withOutputs_iff hfront).2 (.inr ⟨⟨earlier.name, i⟩,
    List.mem_of_getElem? hi, hname, output, rfl, hbecomes.get?_outputs houtput⟩)
  refine ⟨i, hi, hresolve, fun slot hslot all hall => ?_⟩
  obtain ⟨j, hj, hbound⟩ := bound_of_instantiate hplan hfront hall
  obtain ⟨guid, hguid, hsame⟩ := (hslot ▸ hbound slot).exists_guid
  cases hresolve.symm.trans hsame
  exact ⟨j, hj, hguid⟩

/-! ### A graph and a column over its vertices -/

/-- A step that makes the vertex set of the example graph. -/
def vertexStep (name : String) : Step :=
  ⟨name, "ExampleGraph", .object [], SortedMap.empty, ["vertices"]⟩

/-- A step that makes a column over the vertex set of another one. -/
def tagStep (name : String) : Step :=
  ⟨"tags", "AddConstantStringAttribute", .object [("value", .text "x")],
    SortedMap.ofList [("vs", name ++ "." ++ "vertices")], ["attr"]⟩

/-- What a step that makes the vertex set becomes. -/
def vertexInstance : Instance := .derive ⟨"ExampleGraph", []⟩ SortedMap.empty ["vertices"]

/-- What a step that makes the column becomes. -/
def tagInstance : Instance :=
  .derive ⟨"AddConstantStringAttribute", Wire.Codec.text.encode "x"⟩
    (SortedMap.ofList [("vs", Derivation.outputGuid vertexInstance.guid "vertices")]) ["attr"]

theorem becomes_vertexStep (scope : Scope) (name : String) :
    Becomes Registry.builtin scope (vertexStep name) vertexInstance := by
  have hdescribe : Registry.builtin.describe "ExampleGraph" (.object [])
      = .ok ⟨"ExampleGraph", []⟩ := by rfl
  exact ⟨hdescribe, fun _ => .none, rfl⟩

private theorem bound_single {reference : String} {guid : Guid}
    (h : resolve scope reference = .ok guid) (input slot : String) :
    Bound scope ((SortedMap.ofList [(input, reference)]).get? slot)
      ((SortedMap.ofList [(input, guid)]).get? slot) := by
  simp only [SortedMap.ofList, List.foldl_cons, List.foldl_nil]
  by_cases hslot : slot = input
  · rw [hslot, SortedMap.get?_insert_self, SortedMap.get?_insert_self]
    exact .some h
  · rw [SortedMap.get?_insert_of_ne _ _ hslot, SortedMap.get?_insert_of_ne _ _ hslot]
    exact .none

theorem becomes_tagStep (h : resolve scope (name ++ "." ++ "vertices")
      = .ok (Derivation.outputGuid vertexInstance.guid "vertices")) :
    Becomes Registry.builtin scope (tagStep name) tagInstance := by
  have hdescribe : Registry.builtin.describe "AddConstantStringAttribute"
      (.object [("value", .text "x")])
      = .ok ⟨"AddConstantStringAttribute", Wire.Codec.text.encode "x"⟩ := by rfl
  exact ⟨hdescribe, bound_single h "vs", rfl⟩

theorem instantiate_vertexStep (name : String) :
    instantiate ⟨[vertexStep name]⟩ Registry.builtin = .ok [⟨name, vertexInstance⟩] :=
  bind_cons_eq_ok_iff.2 ⟨vertexInstance, [], rfl, rfl, becomes_vertexStep _ name, rfl⟩

theorem outputs_reached_graph :
    '.' ∉ (vertexStep "graph").name.toList ∧
      instantiate ⟨[vertexStep "graph"]⟩ Registry.builtin = .ok [⟨"graph", vertexInstance⟩] ∧
      resolve (withOutputs SortedMap.empty [⟨"graph", vertexInstance⟩]) ("graph" ++ "." ++ "vertices")
        = .ok (Derivation.outputGuid vertexInstance.guid "vertices") ∧
      instantiate ⟨[vertexStep "graph", tagStep "graph"]⟩ Registry.builtin
        = .ok [⟨"graph", vertexInstance⟩, ⟨"tags", tagInstance⟩] ∧
      tagInstance.inputs.get? "vs" = some (Derivation.outputGuid vertexInstance.guid "vertices") := by
  have hname : '.' ∉ (vertexStep "graph").name.toList := by decide
  have hplan : (⟨[vertexStep "graph", tagStep "graph"]⟩ : Plan).steps
      = [vertexStep "graph"] ++ tagStep "graph" :: [] := rfl
  obtain ⟨-, houtputs⟩ := outputs_reached hplan (instantiate_vertexStep "graph")
  obtain ⟨i, hi, hresolve, hinputs⟩ :=
    houtputs 0 (vertexStep "graph") "vertices" rfl (List.mem_singleton_self _) hname
  cases hi
  have hlast : bind Registry.builtin (withOutputs SortedMap.empty [⟨"graph", vertexInstance⟩])
      [tagStep "graph"] = .ok [⟨"tags", tagInstance⟩] :=
    bind_cons_eq_ok_iff.2 ⟨tagInstance, [], rfl, by decide +kernel, becomes_tagStep hresolve, rfl⟩
  have hall : instantiate ⟨[vertexStep "graph", tagStep "graph"]⟩ Registry.builtin
      = .ok [⟨"graph", vertexInstance⟩, ⟨"tags", tagInstance⟩] :=
    bind_append_eq_ok_iff.2 ⟨_, _, rfl, instantiate_vertexStep "graph", hlast⟩
  obtain ⟨j, hj, hguid⟩ := hinputs "vs" rfl _ hall
  cases hj
  exact ⟨hname, instantiate_vertexStep "graph", hresolve, hall, hguid⟩

/-- The output of a step whose name has a dot is not reached. -/
theorem outputs_reached_dotted :
    instantiate ⟨[vertexStep "a.b"]⟩ Registry.builtin = .ok [⟨"a.b", vertexInstance⟩] ∧
      "vertices" ∈ (vertexStep "a.b").outputs ∧
      resolve (withOutputs SortedMap.empty [⟨"a.b", vertexInstance⟩]) ("a.b" ++ "." ++ "vertices")
        = .error "no earlier step named 'a'" ∧
      instantiate ⟨[vertexStep "a.b", tagStep "a.b"]⟩ Registry.builtin
        = .error (.config (.step "tags" "input 'vs': no earlier step named 'a'")) :=
  ⟨instantiate_vertexStep "a.b", List.mem_singleton_self _, rfl, rfl⟩

end Plan

end GraphVault
