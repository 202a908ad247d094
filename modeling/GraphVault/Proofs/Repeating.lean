import GraphVault.Proofs.Operations

/-!
# Running operations again

The built-in operations look at nothing but the content of their inputs, and fill the same slots
whenever they succeed. So an instance that has run once runs again, to the same outputs, wherever
its inputs are bound to the same content (`Instance.RunsTo.again`).
-/

namespace GraphVault

/-- The output slots that the operation of a class fills. -/
def filledSlots (className : String) : List String :=
  if className = "ExampleGraph" then
    ["vertices", "edges", "name", "age", "gender", "income", "location"]
  else if className = "ReverseEdges" then ["reversed"]
  else ["attr"]

theorem filledSlots_ne_nil (className : String) : filledSlots className ≠ [] := by
  unfold filledSlots
  split
  · exact List.cons_ne_nil _ _
  · split <;> exact List.cons_ne_nil _ _

theorem length_filledSlots_le (className : String) : (filledSlots className).length ≤ 7 := by
  unfold filledSlots
  split
  · decide
  · split <;> decide

namespace Context

variable {context after : Context} {inputs inputs' : SortedMap String (Guid × Entity)}
  {slots slots' : List String} {slot : String} {entity : Entity} {α : Type}

/-- Whatever is bound to a slot is bound to it elsewhere, with the same content. -/
def SameInputs (inputs inputs' : SortedMap String (Guid × Entity)) : Prop :=
  ∀ slot guid entity, inputs.get? slot = some (guid, entity) →
    ∃ other, inputs'.get? slot = some (guid, other) ∧ entity.sameContent other

/-- A context with other inputs. -/
def withInputs (context : Context) (inputs : SortedMap String (Guid × Entity)) : Context :=
  { context with inputs }

/-! ### Looking up -/

/-- What is looked up in a context is the same wherever the inputs have the same content. -/
def Stable (look : Context → Except Failure α) : Prop :=
  ∀ context a, look context = .ok a → ∀ inputs, SameInputs context.inputs inputs →
    look (context.withInputs inputs) = .ok a

theorem stable_outputGuid (slot : String) : Stable (·.outputGuid slot) :=
  fun _ _ h _ _ => h

private theorem input_eq_ok_iff {bound : Guid × Entity} :
    context.input slot = .ok bound ↔ context.inputs.get? slot = some bound := by
  unfold input
  cases context.inputs.get? slot <;> simp

private theorem input_withInputs {guid : Guid} (h : context.input slot = .ok (guid, entity))
    (hsame : SameInputs context.inputs inputs) :
    ∃ other, (context.withInputs inputs).input slot = .ok (guid, other) ∧
      entity.sameContent other := by
  obtain ⟨other, hother, hcontent⟩ := hsame slot guid entity (input_eq_ok_iff.1 h)
  exact ⟨other, input_eq_ok_iff.2 hother, hcontent⟩

theorem stable_inputGuid (slot : String) : Stable (·.inputGuid slot) := by
  intro context guid h inputs hsame
  obtain ⟨⟨_, entity⟩, hinput, hguid⟩ := bind_eq_ok_iff.1 h
  cases hguid
  obtain ⟨other, hother, -⟩ := input_withInputs hinput hsame
  exact bind_eq_ok_iff.2 ⟨_, hother, rfl⟩

theorem stable_vertexSet (slot : String) : Stable (·.vertexSet slot) := by
  intro context set h inputs hsame
  obtain ⟨⟨guid, entity⟩, hinput, hset⟩ := bind_eq_ok_iff.1 h
  obtain ⟨other, hother, hcontent⟩ := input_withInputs hinput hsame
  cases entity with
  | vertexSet found =>
    rw [Entity.sameContent_vertexSet_iff.1 hcontent] at hother
    exact bind_eq_ok_iff.2 ⟨_, hother, hset⟩
  | edgeBundle bundle => cases hset
  | column type cells => cases hset

theorem stable_edgeBundle (slot : String) : Stable (·.edgeBundle slot) := by
  intro context bundle h inputs hsame
  obtain ⟨⟨guid, entity⟩, hinput, hbundle⟩ := bind_eq_ok_iff.1 h
  obtain ⟨other, hother, hcontent⟩ := input_withInputs hinput hsame
  cases entity with
  | vertexSet set => cases hbundle
  | edgeBundle found =>
    rw [Entity.sameContent_edgeBundle_iff.1 hcontent] at hother
    exact bind_eq_ok_iff.2 ⟨_, hother, hbundle⟩
  | column type cells => cases hbundle

/-! ### Filling slots -/

/-- Work in a context that fills certain slots, and does the same wherever the inputs have the same
content. -/
structure Repeats (slots : List String) (work : Context → Except Failure Context) : Prop where
  inputs : ∀ {context after}, work context = .ok after → after.inputs = context.inputs
  filled : ∀ {context after}, work context = .ok after → ∀ slot,
    after.produced.contains slot ↔ context.produced.contains slot ∨ slot ∈ slots
  again : ∀ {context after}, work context = .ok after → ∀ inputs, SameInputs context.inputs inputs →
    work (context.withInputs inputs) = .ok (after.withInputs inputs)

theorem repeats_output (slot : String) (entity : Entity) :
    Repeats [slot] (·.output slot entity) := by
  have houtput {context after : Context} (h : context.output slot entity = .ok after) :
      ∃ guid, context.outputGuid slot = .ok guid ∧
        after = { context with produced := context.produced.insert slot entity } := by
    obtain ⟨guid, hguid, hafter⟩ := bind_eq_ok_iff.1 h
    exact ⟨guid, hguid, (Except.ok.inj hafter).symm⟩
  constructor
  case inputs =>
    intro context after h
    obtain ⟨-, -, rfl⟩ := houtput h
    rfl
  case filled =>
    intro context after h other
    obtain ⟨-, -, rfl⟩ := houtput h
    by_cases heq : other = slot
    · simp [heq, SortedMap.contains]
    · simp [heq, SortedMap.contains, SortedMap.get?_insert_of_ne _ _ heq]
  case again =>
    intro context after h inputs _
    obtain ⟨guid, hguid, rfl⟩ := houtput h
    exact bind_eq_ok_iff.2 ⟨guid, hguid, rfl⟩

theorem Repeats.look {look : Context → Except Failure α} {work : α → Context → Except Failure Context}
    (hlook : Stable look) (hwork : ∀ a, Repeats slots (work a)) :
    Repeats slots fun context => look context >>= fun a => work a context := by
  constructor
  case inputs =>
    intro context after h
    obtain ⟨a, -, hafter⟩ := bind_eq_ok_iff.1 h
    exact (hwork a).inputs hafter
  case filled =>
    intro context after h
    obtain ⟨a, -, hafter⟩ := bind_eq_ok_iff.1 h
    exact (hwork a).filled hafter
  case again =>
    intro context after h inputs hsame
    obtain ⟨a, ha, hafter⟩ := bind_eq_ok_iff.1 h
    exact bind_eq_ok_iff.2 ⟨a, hlook context a ha inputs hsame, (hwork a).again hafter inputs hsame⟩

theorem Repeats.bind {work next : Context → Except Failure Context} (hwork : Repeats slots work)
    (hnext : Repeats slots' next) : Repeats (slots ++ slots') fun context => work context >>= next := by
  constructor
  case inputs =>
    intro context after h
    obtain ⟨between, hbetween, hafter⟩ := bind_eq_ok_iff.1 h
    rw [hnext.inputs hafter, hwork.inputs hbetween]
  case filled =>
    intro context after h slot
    obtain ⟨between, hbetween, hafter⟩ := bind_eq_ok_iff.1 h
    rw [hnext.filled hafter, hwork.filled hbetween, List.mem_append, or_assoc]
  case again =>
    intro context after h inputs hsame
    obtain ⟨between, hbetween, hafter⟩ := bind_eq_ok_iff.1 h
    have hsame' : SameInputs between.inputs inputs := hwork.inputs hbetween ▸ hsame
    exact bind_eq_ok_iff.2
      ⟨_, hwork.again hbetween inputs hsame, hnext.again hafter inputs hsame'⟩

theorem repeats_foldlM (parts : List (String × Entity)) :
    Repeats (parts.map (·.1)) fun context =>
      parts.foldlM (fun context (slot, entity) => context.output slot entity) context := by
  induction parts with
  | nil =>
    refine ⟨?_, ?_, ?_⟩ <;> rintro context after ⟨⟩
    · rfl
    · simp
    · exact fun _ _ => rfl
  | cons part parts ih =>
    simp only [List.foldlM_cons]
    exact (repeats_output part.1 part.2).bind ih

private theorem repeats_execute {operation : Operation}
    (h : operation ∈ [Operation.exampleGraph, Operation.addConstantDouble,
      Operation.addConstantString, Operation.reverseEdges]) (params : operation.Params) :
    Repeats (filledSlots operation.className) (operation.execute params) := by
  have hconstant (type : ColumnType) (value : type.Cell) :
      Repeats ["attr"] (Operation.constantColumn type value) :=
    .look (stable_inputGuid "vs") fun _ => .look (stable_vertexSet "vs") fun _ =>
      repeats_output "attr" _
  simp only [List.mem_cons, List.not_mem_nil, or_false] at h
  obtain rfl | rfl | rfl | rfl := h
  · exact .look (stable_outputGuid "vertices") fun vertices => repeats_foldlM (exampleParts vertices)
  · exact hconstant .double params
  · exact hconstant .string params
  · exact .look (stable_edgeBundle "es") fun _ => repeats_output "reversed" _

theorem repeats_run (description : Description) :
    Repeats (filledSlots description.className) (Registry.builtin.run description) := by
  cases hknown : Registry.builtin.operations.get? description.className with
  | none =>
    have hnever {context after : Context} :
        Registry.builtin.run description context ≠ .ok after := by
      simp [Registry.run, Registry.withOperation, hknown]
    exact ⟨fun h => absurd h hnever, fun h => absurd h hnever, fun h => absurd h hnever⟩
  | some operation =>
    obtain ⟨hmem, hclass⟩ := Registry.mem_of_get?_ofList hknown
    have hrun : Registry.builtin.run description = fun context =>
        operation.typed description.params >>= fun params => operation.execute params context := by
      funext context
      simp only [Registry.run, Registry.withOperation, hknown, Operation.run]
    rw [hrun, ← hclass]
    exact .look (fun _ _ h _ _ => h) fun params => repeats_execute hmem params

/-- What is handed over is all that was declared, and all that was produced. -/
theorem contains_of_outputs {outputs : List (Guid × Entity)} (h : context.outputs = .ok outputs)
    (slot : String) : context.declared.contains slot ↔ context.produced.contains slot := by
  unfold Context.outputs at h
  split at h
  · cases h
  rename_i hall
  constructor
  · intro hdeclared
    simpa using List.find?_eq_none.1 hall slot (SortedMap.mem_keys_iff.2 hdeclared)
  · intro hproduced
    have hguids : Computes (fun _ => True)
        (List.Forall₂ (fun binding _ => context.declared.contains binding.1)
          context.produced.entries)
        (context.produced.entries.mapM fun (slot, entity) => do
          return (← context.outputGuid slot, entity)) := by
      refine .mapM_forall₂ fun binding _ => ?_
      have hguid : Computes (fun _ => True) (fun guid => context.declared.get? binding.1 = some guid)
          (context.outputGuid binding.1) :=
        (computes_outputGuid context binding.1).weaken fun _ _ => trivial
      exact hguid.bind fun guid hget => Option.isSome_iff_exists.2 ⟨guid, hget⟩
    rw [h] at hguids
    obtain ⟨entity, hentity⟩ := Option.isSome_iff_exists.1 hproduced
    obtain ⟨-, -, hdeclared⟩ :=
      exists_right_of_forall₂ hguids _ (SortedMap.get?_eq_some_iff.1 hentity)
    exact hdeclared

end Context

/-! ### Running an instance -/

namespace Instance

variable {i : Instance} {means : Guid → Entity → Prop}
  {inputs inputs' : SortedMap String (Guid × Entity)} {outputs : List (Guid × Entity)}

/-- On certain inputs, the operation of an instance hands over certain outputs. -/
def RunsTo (i : Instance) (inputs : SortedMap String (Guid × Entity))
    (outputs : List (Guid × Entity)) : Prop :=
  ∃ context, Registry.builtin.run i.description (Context.start i inputs) = .ok context ∧
    context.outputs = .ok outputs

/-- An instance runs to the same outputs on inputs of the same content. -/
theorem RunsTo.again (h : i.RunsTo inputs outputs) (hsame : Context.SameInputs inputs inputs') :
    i.RunsTo inputs' outputs := by
  obtain ⟨context, hrun, houtputs⟩ := h
  exact ⟨_, (Context.repeats_run i.description).again hrun inputs' hsame, houtputs⟩

private theorem RunsTo.serves (h : i.RunsTo inputs outputs) :
    ∃ context, Context.Serves i (Makes i inputs) context ∧ context.outputs = .ok outputs ∧
      ∀ slot, context.produced.contains slot ↔ slot ∈ filledSlots i.className := by
  obtain ⟨context, hrun, houtputs⟩ := h
  have hserves := makes_run i inputs
  rw [hrun] at hserves
  refine ⟨context, hserves, houtputs, fun slot => ?_⟩
  rw [(Context.repeats_run i.description).filled hrun slot]
  exact or_iff_right Bool.false_ne_true

/-- An instance that runs declares just the slots that its operation fills. -/
theorem RunsTo.contains_iff (h : i.RunsTo inputs outputs) (slot : String) :
    i.outputs.contains slot ↔ slot ∈ filledSlots i.className := by
  obtain ⟨context, hserves, houtputs, hfilled⟩ := h.serves
  rw [← hfilled, ← hserves.declared]
  exact Context.contains_of_outputs houtputs slot

theorem RunsTo.hands (h : i.RunsTo inputs outputs) : i.Hands (Makes i inputs) outputs := by
  obtain ⟨context, hserves, houtputs, -⟩ := h.serves
  have hhands := hserves.computes_outputs
  rw [houtputs] at hhands
  exact hhands

/-- Two assignments of inputs to an instance have the same content if guids stand for one. -/
theorem Binds.sameInputs (h : i.Binds means inputs) (h' : i.Binds means inputs')
    (hmeans : ∀ guid entity other, means guid entity → means guid other →
      entity.sameContent other) : Context.SameInputs inputs inputs' := by
  intro slot guid entity hget
  obtain ⟨hslot, hentity⟩ := h.sound slot guid entity hget
  obtain ⟨other, hother⟩ := h'.complete slot guid hslot
  exact ⟨other, hother, hmeans guid entity other hentity (h'.sound slot guid other hother).2⟩

end Instance

namespace Executor

/-- Where an instance runs on what is bound to its inputs, its outputs are handed over in order. -/
theorem keeps_produce_runsTo {inv : Vault → Prop} {tolerated : Failure → Prop}
    {means : Guid → Entity → Prop} {i : Instance}
    (hresolve : Keeps inv tolerated (i.Binds means) (resolveInputs i))
    (hruns : ∀ inputs, i.Binds means inputs →
      (∃ outputs, i.RunsTo inputs outputs) ∨ ∀ failure, tolerated failure) :
    Keeps inv tolerated
      (fun outputs => InOrder outputs ∧ ∃ inputs made, i.Binds means inputs ∧
        i.RunsTo inputs made ∧ outputs.Perm made)
      (produce Registry.builtin i) := by
  refine hresolve.bind fun inputs hinputs => ?_
  have htolerated {failure : Failure} (h : ¬ ∃ outputs, i.RunsTo inputs outputs) :
      tolerated failure := (hruns inputs hinputs).resolve_left h failure
  refine .bind (.ofExcept (fun context hcontext => hcontext) fun failure hfailure => ?_)
    fun context hcontext => ?_
  · refine htolerated ?_
    rintro ⟨outputs, context, hcontext, -⟩
    rw [hcontext] at hfailure
    cases hfailure
  refine .bind (.ofExcept (fun made hmade => hmade) fun failure hfailure => ?_)
    fun made hmade => .pure ?_
  · refine htolerated ?_
    rintro ⟨outputs, other, hother, houtputs⟩
    rw [hcontext, Except.ok.injEq] at hother
    rw [← hother, hfailure] at houtputs
    cases houtputs
  · exact ⟨inOrder_mergeSort made, inputs, made, hinputs, ⟨context, hcontext, hmade⟩,
      List.mergeSort_perm _ _⟩

end Executor

end GraphVault
