import GraphVault.Executor
import GraphVault.Proofs.Denotation

/-!
# What operations make

An operation is given what is bound to the input slots of its instance. It hands over its outputs
slot by slot, each declared slot exactly once and no others. So what the built-in operations make is
known slot by slot from the inputs, whatever these hold.
-/

namespace GraphVault

/-- Whether a failure comes from what an operation does with its inputs and its slots. -/
def Failure.OfExecution : Failure → Prop
  | operationFailed _ _ | kindMismatch _ _ _ | unexpectedOutput _ _ | missingOutput _ _ => True
  | _ => False

/-- Whether a failure comes from the way an operation is used. -/
def Failure.OfOperation : Failure → Prop
  | unknownOperation _ | invalidParams _ _ | operationFailed _ _ | kindMismatch _ _ _
  | unexpectedOutput _ _ | missingOutput _ _ => True
  | _ => False

theorem Failure.OfExecution.ofOperation {failure : Failure} (h : failure.OfExecution) :
    failure.OfOperation := by
  cases failure <;> first | exact trivial | exact h.elim

/-! ### Inputs and outputs -/

namespace Instance

/-- What is bound to the input slots of an instance, each with what its guid means. -/
structure Binds (i : Instance) (means : Guid → Entity → Prop)
    (inputs : SortedMap String (Guid × Entity)) : Prop where
  sound : ∀ slot guid entity, inputs.get? slot = some (guid, entity) →
    i.inputs.get? slot = some guid ∧ means guid entity
  complete : ∀ slot guid, i.inputs.get? slot = some guid →
    ∃ entity, inputs.get? slot = some (guid, entity)

theorem Binds.mono {i : Instance} {means means' : Guid → Entity → Prop}
    {inputs : SortedMap String (Guid × Entity)} (h : i.Binds means inputs)
    (hmeans : ∀ guid entity, means guid entity → means' guid entity) : i.Binds means' inputs := by
  refine ⟨fun slot guid entity hget => ?_, h.complete⟩
  obtain ⟨hslot, hentity⟩ := h.sound slot guid entity hget
  exact ⟨hslot, hmeans guid entity hentity⟩

/-- What is handed over under the output guids of an instance, each once and good for its slot. -/
structure Hands (i : Instance) (good : String → Entity → Prop) (outputs : List (Guid × Entity)) :
    Prop where
  sound : ∀ output ∈ outputs, ∃ slot, i.outputs.get? slot = some output.1 ∧ good slot output.2
  complete : ∀ slot guid, i.outputs.get? slot = some guid →
    ∃ entity, (guid, entity) ∈ outputs ∧ good slot entity
  nodup : i.outputs.values.Nodup → (outputs.map (·.1)).Nodup

theorem mem_values_iff {slots : Slots} {guid : Guid} :
    guid ∈ slots.values ↔ ∃ slot, slots.get? slot = some guid := by
  simp [SortedMap.values, SortedMap.get?_eq_some_iff]

variable {i : Instance} {good good' : String → Entity → Prop} {outputs : List (Guid × Entity)}

theorem Hands.mem_guids_iff (h : i.Hands good outputs) {guid : Guid} :
    guid ∈ outputs.map (·.1) ↔ guid ∈ i.outputs.values := by
  rw [mem_values_iff, List.mem_map]
  constructor
  · rintro ⟨output, houtput, rfl⟩
    obtain ⟨slot, hslot, -⟩ := h.sound output houtput
    exact ⟨slot, hslot⟩
  · rintro ⟨slot, hslot⟩
    obtain ⟨entity, hentity, -⟩ := h.complete slot guid hslot
    exact ⟨_, hentity, rfl⟩

theorem Hands.perm (h : i.Hands good outputs) {others : List (Guid × Entity)}
    (hperm : others.Perm outputs) : i.Hands good others := by
  refine ⟨fun output houtput => h.sound output (hperm.mem_iff.1 houtput), fun slot guid hslot => ?_,
    fun hnodup => ((hperm.map _).nodup_iff).2 (h.nodup hnodup)⟩
  obtain ⟨entity, hentity, hgood⟩ := h.complete slot guid hslot
  exact ⟨entity, hperm.mem_iff.2 hentity, hgood⟩

end Instance

namespace Executor

private theorem keeps_bindings {inv : Vault → Prop} {tolerated : Failure → Prop}
    {means : Guid → Entity → Prop} {i : Instance}
    (h : ∀ slot guid, i.inputs.get? slot = some guid →
      Keeps inv tolerated (means guid) (resolveInput slot guid)) :
    Keeps inv tolerated
      (List.Forall₂ (fun input binding => (binding.1 = input.1 ∧ binding.2.1 = input.2) ∧
        means binding.2.1 binding.2.2) i.inputs.entries)
      (i.inputs.entries.mapM fun (slot, guid) => do
        return (slot, (guid, ← resolveInput slot guid))) := by
  refine .mapM_forall₂ fun input hinput => ?_
  have hfound := h input.1 input.2 (SortedMap.get?_eq_some_iff.2 hinput)
  exact hfound.bind fun _ hentity => .pure ⟨⟨rfl, rfl⟩, hentity⟩

/-- Where each input is found, all inputs are bound. -/
theorem keeps_resolveInputs {inv : Vault → Prop} {tolerated : Failure → Prop}
    {means : Guid → Entity → Prop} {i : Instance}
    (h : ∀ slot guid, i.inputs.get? slot = some guid →
      Keeps inv tolerated (means guid) (resolveInput slot guid)) :
    Keeps inv tolerated (i.Binds means) (resolveInputs i) := by
  refine (keeps_bindings h).bind fun bindings hbindings => .pure ⟨fun slot guid entity hget => ?_, ?_⟩
  · obtain ⟨input, hinput, ⟨hslot, hguid⟩, hmeans⟩ :=
      exists_left_of_forall₂ hbindings _ (SortedMap.mem_of_get?_ofList hget)
    refine ⟨SortedMap.get?_eq_some_iff.2 ?_, hmeans⟩
    rw [show slot = input.1 from hslot, show guid = input.2 from hguid]
    exact hinput
  · intro slot guid hget
    obtain ⟨binding, hbinding, ⟨hslot, -⟩, -⟩ :=
      exists_right_of_forall₂ hbindings _ (SortedMap.get?_eq_some_iff.1 hget)
    have hcontains : (SortedMap.ofList bindings).contains slot :=
      SortedMap.contains_ofList_iff.2 (List.mem_map.2 ⟨binding, hbinding, hslot⟩)
    obtain ⟨⟨other, entity⟩, hentity⟩ := Option.isSome_iff_exists.1 hcontains
    obtain ⟨input, hinput, ⟨hslot', hguid⟩, -⟩ :=
      exists_left_of_forall₂ hbindings _ (SortedMap.mem_of_get?_ofList hentity)
    have hinput' : i.inputs.get? slot = some input.2 := by
      rw [show slot = input.1 from hslot']
      exact SortedMap.get?_eq_some_iff.2 hinput
    rw [hget, Option.some.injEq] at hinput'
    have hother : other = guid := hguid.trans hinput'.symm
    exact ⟨entity, hother ▸ hentity⟩

end Executor

/-! ### Handing over outputs -/

namespace Context

/-- A context for the outputs of an instance, in which only what is good has been produced. -/
structure Serves (i : Instance) (good : String → Entity → Prop) (context : Context) : Prop where
  declared : context.declared = i.outputs
  produced : ∀ slot entity, context.produced.get? slot = some entity → good slot entity

variable {i : Instance} {good good' : String → Entity → Prop} {context : Context} {slot : String}
  {entity : Entity}

theorem serves_start (i : Instance) (inputs : SortedMap String (Guid × Entity))
    (good : String → Entity → Prop) : (start i inputs).Serves i good := ⟨rfl, nofun⟩

theorem Serves.mono (h : context.Serves i good) (hgood : ∀ slot entity, good slot entity →
    good' slot entity) : context.Serves i good' :=
  ⟨h.declared, fun slot entity hget => hgood slot entity (h.produced slot entity hget)⟩

theorem computes_outputGuid (context : Context) (slot : String) :
    Computes Failure.OfExecution (fun guid => context.declared.get? slot = some guid)
      (context.outputGuid slot) := by
  unfold outputGuid
  cases h : context.declared.get? slot with
  | none => exact trivial
  | some guid => rfl

theorem Serves.computes_output (h : context.Serves i good) (hgood : good slot entity) :
    Computes Failure.OfExecution (Serves i good) (context.output slot entity) := by
  apply (computes_outputGuid context slot).bind
  intro guid hguid
  refine ⟨h.declared, fun other e he => ?_⟩
  by_cases heq : other = slot
  · subst heq
    rw [SortedMap.get?_insert_self, Option.some.injEq] at he
    rw [← he]
    exact hgood
  · rw [SortedMap.get?_insert_of_ne _ _ heq] at he
    exact h.produced other e he

theorem Serves.computes_foldlM {parts : List (String × Entity)} (h : context.Serves i good)
    (hgood : ∀ part ∈ parts, good part.1 part.2) :
    Computes Failure.OfExecution (Serves i good)
      (parts.foldlM (fun context (slot, entity) => context.output slot entity) context) := by
  induction parts generalizing context with
  | nil => exact h
  | cons part parts ih =>
    rw [List.foldlM_cons]
    apply (h.computes_output (hgood part List.mem_cons_self)).bind
    intro after hafter
    exact ih hafter fun other hother => hgood other (List.mem_cons_of_mem _ hother)

private theorem nodup_guids {declared : Slots} (hnodup : declared.values.Nodup)
    {entries : List (String × Entity)} {outputs : List (Guid × Entity)}
    (hslots : (entries.map (·.1)).Nodup)
    (h : List.Forall₂ (fun binding output => declared.get? binding.1 = some output.1 ∧
      output.2 = binding.2) entries outputs) : (outputs.map (·.1)).Nodup := by
  have hslot {slot slot' : String} {guid : Guid} (hget : declared.get? slot = some guid)
      (hget' : declared.get? slot' = some guid) : slot = slot' :=
    congrArg Prod.fst (List.inj_on_of_nodup_map hnodup (SortedMap.get?_eq_some_iff.1 hget)
      (SortedMap.get?_eq_some_iff.1 hget') rfl)
  induction h with
  | nil => exact List.nodup_nil
  | @cons binding output entries outputs hhead hrest ih =>
    rw [List.map_cons, List.nodup_cons] at hslots ⊢
    refine ⟨fun hmem => ?_, ih hslots.2⟩
    obtain ⟨other, hother, hguid⟩ := List.mem_map.1 hmem
    obtain ⟨binding', hbinding', hget, -⟩ := exists_left_of_forall₂ hrest other hother
    rw [hguid] at hget
    exact hslots.1 (List.mem_map.2 ⟨binding', hbinding', hslot hget hhead.1⟩)

/-- The outputs of a context are what was produced under the declared guids. -/
theorem Serves.computes_outputs (h : context.Serves i good) :
    Computes Failure.OfExecution (i.Hands good) context.outputs := by
  unfold outputs
  split
  · exact trivial
  rename_i hall
  have houtputs : Computes Failure.OfExecution
      (List.Forall₂ (fun binding output => i.outputs.get? binding.1 = some output.1 ∧
        output.2 = binding.2) context.produced.entries)
      (context.produced.entries.mapM fun (slot, entity) => do
        return (← context.outputGuid slot, entity)) := by
    refine .mapM_forall₂ fun binding _ => (computes_outputGuid context binding.1).bind ?_
    intro guid hguid
    rw [h.declared] at hguid
    exact ⟨hguid, rfl⟩
  refine houtputs.mono fun outputs houtputs => ⟨fun output houtput => ?_, ?_, fun hnodup => ?_⟩
  · obtain ⟨binding, hbinding, hslot, hentity⟩ := exists_left_of_forall₂ houtputs output houtput
    rw [hentity]
    exact ⟨binding.1, hslot, h.produced _ _ (SortedMap.get?_eq_some_iff.2 hbinding)⟩
  · intro slot guid hslot
    have hkey : slot ∈ context.declared.keys := by
      rw [h.declared, SortedMap.mem_keys_iff, SortedMap.contains, hslot]
      rfl
    have hproduced : context.produced.contains slot := by
      simpa using List.find?_eq_none.1 hall slot hkey
    obtain ⟨entity, hentity⟩ := Option.isSome_iff_exists.1 hproduced
    obtain ⟨⟨other, found⟩, houtput, hother, rfl⟩ :=
      exists_right_of_forall₂ houtputs _ (SortedMap.get?_eq_some_iff.1 hentity)
    rw [hslot, Option.some.injEq] at hother
    exact ⟨found, hother ▸ houtput, h.produced slot found hentity⟩
  · exact nodup_guids hnodup context.produced.nodup_keys houtputs

/-! ### Looking at inputs -/

theorem computes_input (context : Context) (slot : String) :
    Computes Failure.OfExecution (fun input => context.inputs.get? slot = some input)
      (context.input slot) := by
  unfold input
  cases h : context.inputs.get? slot with
  | none => exact trivial
  | some input => rfl

theorem computes_inputGuid (context : Context) (slot : String) :
    Computes Failure.OfExecution (fun guid => ∃ entity, context.inputs.get? slot = some (guid, entity))
      (context.inputGuid slot) :=
  (computes_input context slot).bind fun input hinput => ⟨input.2, hinput⟩

theorem computes_vertexSet (context : Context) (slot : String) :
    Computes Failure.OfExecution
      (fun set => ∃ guid, context.inputs.get? slot = some (guid, .vertexSet set))
      (context.vertexSet slot) := by
  refine (computes_input context slot).bind fun ⟨guid, entity⟩ hinput => ?_
  cases entity with
  | vertexSet set => exact ⟨guid, hinput⟩
  | edgeBundle bundle => exact trivial
  | column type cells => exact trivial

theorem computes_edgeBundle (context : Context) (slot : String) :
    Computes Failure.OfExecution
      (fun bundle => ∃ guid, context.inputs.get? slot = some (guid, .edgeBundle bundle))
      (context.edgeBundle slot) := by
  refine (computes_input context slot).bind fun ⟨guid, entity⟩ hinput => ?_
  cases entity with
  | vertexSet set => exact trivial
  | edgeBundle bundle => exact ⟨guid, hinput⟩
  | column type cells => exact trivial

end Context

/-! ### Running operations -/

private theorem operations_foldl_register (operations : List Operation) (registry : Registry) :
    (operations.foldl Registry.register registry).operations
      = (operations.map fun operation => (operation.className, operation)).foldl
        (fun known binding => known.insert binding.1 binding.2) registry.operations := by
  induction operations generalizing registry with
  | nil => rfl
  | cons head operations ih =>
    rw [List.foldl_cons, List.map_cons, List.foldl_cons, ih]
    rfl

/-- Operations are found by their class. -/
theorem Registry.mem_of_get?_ofList {operations : List Operation} {name : String}
    {operation : Operation} (h : (ofList operations).operations.get? name = some operation) :
    operation ∈ operations ∧ operation.className = name := by
  rw [ofList, operations_foldl_register] at h
  obtain ⟨found, hfound, heq⟩ := List.mem_map.1 (SortedMap.mem_of_get?_ofList h)
  cases heq
  exact ⟨hfound, rfl⟩

/-- What the built-in operation of an instance hands over in a slot. -/
inductive Makes (i : Instance) (inputs : SortedMap String (Guid × Entity)) :
    String → Entity → Prop where
  /-- A part of the example graph, over the vertex set of the same instance. -/
  | exampleGraph {vertices : Guid} {slot : String} {entity : Entity}
      (hclass : i.className = "ExampleGraph")
      (hvertices : i.outputs.get? "vertices" = some vertices)
      (hpart : (slot, entity) ∈ exampleParts vertices) : Makes i inputs slot entity
  /-- As many cells of one value as the input has positions. -/
  | constantColumn {type : ColumnType} {value : type.Cell} {input : Guid} {set : VertexSet}
      (hclass : constantClass type = some i.className)
      (hvalue : type.codec.read i.description.params = .ok value)
      (hinput : inputs.get? "vs" = some (input, .vertexSet set)) :
      Makes i inputs "attr"
        (.column type (Attribute.dense input (List.replicate set.size value)))
  /-- The edges of the input with their ends exchanged. -/
  | reverseEdges {input : Guid} {bundle : EdgeBundle} (hclass : i.className = "ReverseEdges")
      (hinput : inputs.get? "es" = some (input, .edgeBundle bundle)) :
      Makes i inputs "reversed" (.edgeBundle bundle.reverse)

section Operations

variable {i : Instance} {inputs : SortedMap String (Guid × Entity)}

private theorem makes_exampleGraph (hclass : i.className = "ExampleGraph") (params : Unit) :
    Computes Failure.OfExecution (Context.Serves i (Makes i inputs))
      (Operation.exampleGraph.execute params (Context.start i inputs)) := by
  have hrun (context : Context) : Operation.exampleGraph.execute params context = (do
      let vertices ← context.outputGuid "vertices"
      (exampleParts vertices).foldlM (fun context (slot, entity) => context.output slot entity)
        context) := rfl
  rw [hrun]
  apply (Context.computes_outputGuid _ "vertices").bind
  intro vertices hvertices
  apply (Context.serves_start i inputs _).computes_foldlM
  intro part hpart
  exact .exampleGraph hclass hvertices hpart

private theorem makes_constantColumn {type : ColumnType} {value : type.Cell}
    (hclass : constantClass type = some i.className)
    (hvalue : type.codec.read i.description.params = .ok value) :
    Computes Failure.OfExecution (Context.Serves i (Makes i inputs))
      (Operation.constantColumn type value (Context.start i inputs)) := by
  apply (Context.computes_inputGuid _ "vs").bind
  rintro guid ⟨entity, hguid⟩
  apply (Context.computes_vertexSet _ "vs").bind
  rintro set ⟨input, hinput⟩
  have heq : some (guid, entity) = some (input, .vertexSet set) := hguid.symm.trans hinput
  cases heq
  apply (Context.serves_start i inputs _).computes_output
  exact .constantColumn hclass hvalue hinput

private theorem makes_reverseEdges (hclass : i.className = "ReverseEdges") (params : Unit) :
    Computes Failure.OfExecution (Context.Serves i (Makes i inputs))
      (Operation.reverseEdges.execute params (Context.start i inputs)) := by
  apply (Context.computes_edgeBundle _ "es").bind
  rintro bundle ⟨input, hinput⟩
  apply (Context.serves_start i inputs _).computes_output
  exact .reverseEdges hclass hinput

/-- An operation that is known, with parameters that can be read, makes what it does. -/
theorem makes_run_of_known {operation : Operation} {params : operation.Params}
    (hknown : Registry.builtin.operations.get? i.className = some operation)
    (hparams : operation.form.codec.read i.description.params = .ok params) :
    Computes Failure.OfExecution (Context.Serves i (Makes i inputs))
      (Registry.builtin.run i.description (Context.start i inputs)) := by
  have hrun : Registry.builtin.run i.description (Context.start i inputs)
      = operation.execute params (Context.start i inputs) := by
    have hknown' : Registry.builtin.operations.get? i.description.className = some operation :=
      hknown
    simp only [Registry.run, Registry.withOperation, hknown', Operation.run, Operation.typed,
      hparams]
    rfl
  rw [hrun]
  obtain ⟨hmem, hclass⟩ := Registry.mem_of_get?_ofList hknown
  simp only [List.mem_cons, List.not_mem_nil, or_false] at hmem
  obtain rfl | rfl | rfl | rfl := hmem
  · exact makes_exampleGraph hclass.symm params
  · have hdouble : constantClass .double = some i.className := congrArg some hclass
    exact makes_constantColumn hdouble hparams
  · have hstring : constantClass .string = some i.className := congrArg some hclass
    exact makes_constantColumn hstring hparams
  · exact makes_reverseEdges hclass.symm params

/-- What the built-in operations make, or else the way they are used is at fault. -/
theorem makes_run (i : Instance) (inputs : SortedMap String (Guid × Entity)) :
    Computes Failure.OfOperation (Context.Serves i (Makes i inputs))
      (Registry.builtin.run i.description (Context.start i inputs)) := by
  cases hknown : Registry.builtin.operations.get? i.className with
  | none =>
    have hknown' : Registry.builtin.operations.get? i.description.className = none := hknown
    simp only [Registry.run, Registry.withOperation, hknown']
    exact trivial
  | some operation =>
    cases hparams : operation.form.codec.read i.description.params with
    | ok params =>
      exact (makes_run_of_known hknown hparams).weaken fun _ h => h.ofOperation
    | error fault =>
      have hknown' : Registry.builtin.operations.get? i.description.className = some operation :=
        hknown
      simp only [Registry.run, Registry.withOperation, hknown', Operation.run, Operation.typed,
        hparams]
      exact trivial

end Operations

/-! ### Producing outputs -/

namespace Executor

/-- Outputs in the order in which they are published. -/
def InOrder (outputs : List (Guid × Entity)) : Prop :=
  outputs.Pairwise fun a b => a.2.publishRank ≤ b.2.publishRank

instance : DecidablePred InOrder := fun outputs =>
  inferInstanceAs (Decidable (outputs.Pairwise fun a b => a.2.publishRank ≤ b.2.publishRank))

theorem inOrder_mergeSort (outputs : List (Guid × Entity)) :
    InOrder (outputs.mergeSort fun a b => a.2.publishRank ≤ b.2.publishRank) := by
  refine (List.pairwise_mergeSort (fun a b c hab hbc => ?_) (fun a b => ?_) outputs).imp
    decide_eq_true_iff.1
  · rw [decide_eq_true_iff] at *
    exact Nat.le_trans hab hbc
  · rw [Bool.or_eq_true, decide_eq_true_iff, decide_eq_true_iff]
    exact Nat.le_total _ _

/-- Where an operation runs on what is bound to its inputs, its outputs are handed over in order. -/
theorem keeps_produce {inv : Vault → Prop} {tolerated : Failure → Prop}
    {means : Guid → Entity → Prop} {i : Instance}
    (hresolve : Keeps inv tolerated (i.Binds means) (resolveInputs i))
    (hruns : ∀ inputs, i.Binds means inputs →
      Computes tolerated (Context.Serves i (Makes i inputs))
        (Registry.builtin.run i.description (Context.start i inputs)))
    (htolerated : ∀ failure : Failure, failure.OfExecution → tolerated failure) :
    Keeps inv tolerated
      (fun outputs => InOrder outputs ∧
        ∃ inputs, i.Binds means inputs ∧ i.Hands (Makes i inputs) outputs)
      (produce Registry.builtin i) := by
  refine hresolve.bind fun inputs hinputs => (hruns inputs hinputs).keeps.bind fun context hserves => ?_
  refine (hserves.computes_outputs.weaken htolerated).keeps.bind fun outputs houtputs => .pure ?_
  exact ⟨inOrder_mergeSort outputs, inputs, hinputs, houtputs.perm (List.mergeSort_perm _ _)⟩

end Executor

end GraphVault
