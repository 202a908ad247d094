import GraphVault.Proofs.Computation
import GraphVault.Proofs.Repeating
import GraphVault.Proofs.Waves

/-!
# Ledgers

A ledger lists instances that ran, each of them behind those that it takes outputs of. Where guids
are not ambiguous, all that is ever needed to run the listed instances again is made by listed
instances: their inputs, and whatever their outputs refer to. And they go together in one graph.
-/

namespace GraphVault

/-- An instance runs on what its input guids stand for. -/
def Instance.Runs (executed : Instance → Prop) (i : Instance) : Prop :=
  ∃ inputs outputs, i.Binds (meaning executed).Means inputs ∧ i.RunsTo inputs outputs

/-- Instances that ran, in an order in which they only take outputs of earlier ones. -/
structure Ledger (executed : Instance → Prop) (listed : List Instance) : Prop where
  accepted : ∀ i ∈ listed, Accepted executed i
  runs : ∀ i ∈ listed, i.Runs executed
  backward : Dag.Backward listed

/-- A guid is an output of a listed instance. -/
def MadeBy (listed : List Instance) (guid : Guid) : Prop := ∃ i ∈ listed, guid ∈ i.outputs.values

variable {executed : Instance → Prop} {listed others : List Instance} {i j : Instance}
  {guid : Guid} {entity : Entity}

theorem MadeBy.mono (h : MadeBy listed guid) (hsub : ∀ i ∈ listed, i ∈ others) :
    MadeBy others guid := by
  obtain ⟨i, hi, hguid⟩ := h
  exact ⟨i, hsub i hi, hguid⟩

namespace Instance

theorem mem_values_of_get? {slots : Slots} {slot : String} (h : slots.get? slot = some guid) :
    guid ∈ slots.values := mem_values_iff.2 ⟨slot, h⟩

/-- An instance that has run once runs on whatever has the content that its inputs stand for. -/
theorem Runs.runsTo (h : i.Runs executed) {inputs : SortedMap String (Guid × Entity)}
    (hinputs : i.Binds (meaning executed).Means inputs) : ∃ outputs, i.RunsTo inputs outputs := by
  obtain ⟨bound, outputs, hbound, hruns⟩ := h
  exact ⟨outputs, hruns.again (hbound.sameInputs hinputs fun _ _ _ he ho => he.sameContent ho)⟩

theorem Runs.contains_iff (h : i.Runs executed) (slot : String) :
    i.outputs.contains slot ↔ slot ∈ filledSlots i.className := by
  obtain ⟨_, _, -, hruns⟩ := h
  exact hruns.contains_iff slot

theorem Runs.size_le (h : i.Runs executed) : i.outputs.size ≤ 7 := by
  have hslots : i.outputs.keys ⊆ filledSlots i.className := fun slot hslot =>
    (h.contains_iff slot).1 (SortedMap.mem_keys_iff.1 hslot)
  have hlength := (List.subperm_of_subset i.outputs.nodup_keys hslots).length_le
  rw [SortedMap.keys, List.length_map] at hlength
  exact Nat.le_trans hlength (length_filledSlots_le i.className)

/-- An instance that runs is told by its guid. -/
theorem Runs.eq_of_guid (h : i.Runs executed) (h' : j.Runs executed)
    (hunambiguous : Unambiguous executed) (hi : Accepted executed i) (hj : Accepted executed j)
    (hguid : i.guid = j.guid) : i = j := by
  obtain ⟨hdescription, hinputs⟩ := hunambiguous.guid_unique hi hj hguid
  rw [← derive_eq hi.verified fun slot => (h.contains_iff slot).symm,
    ← derive_eq hj.verified fun slot => (h'.contains_iff slot).symm,
    className, className, hdescription, hinputs]

/-- An instance that runs makes something. -/
theorem Runs.exists_output (h : i.Runs executed) : ∃ output, output ∈ i.outputs.values := by
  obtain ⟨slot, hslot⟩ := List.exists_mem_of_ne_nil _ (filledSlots_ne_nil i.className)
  obtain ⟨output, houtput⟩ := Option.isSome_iff_exists.1 ((h.contains_iff slot).2 hslot)
  exact ⟨output, mem_values_of_get? houtput⟩

/-- Whatever an instance that runs makes is denoted. -/
theorem Runs.denotes (h : i.Runs executed) (hunambiguous : Unambiguous executed)
    (hi : Accepted executed i) {output : Guid} (houtput : output ∈ i.outputs.values) :
    ∃ entity, Denotes executed output entity := by
  obtain ⟨slot, hslot⟩ := mem_values_iff.1 houtput
  obtain ⟨inputs, outputs, hinputs, hruns⟩ := h
  obtain ⟨entity, -, hmakes⟩ := hruns.hands.complete slot output hslot
  exact ⟨entity, hmakes.output hunambiguous hi hinputs.sound output hslot⟩

end Instance

/-- The outputs of an instance all have different guids. -/
theorem Unambiguous.nodup_outputs (h : Unambiguous executed) (hi : Accepted executed i) :
    i.outputs.values.Nodup := by
  refine (List.nodup_map_iff_inj_on ?_).2 fun binding hbinding other hother heq => ?_
  · exact List.Nodup.of_map _ i.outputs.nodup_keys
  · have hslot := SortedMap.get?_eq_some_iff.2 (show (binding.1, binding.2) ∈ _ from hbinding)
    have hslot' := SortedMap.get?_eq_some_iff.2 (show (other.1, other.2) ∈ _ from hother)
    rw [← heq] at hslot'
    obtain ⟨-, -, -, hsame⟩ := h.output_unique hi hi hslot hslot'
    exact Prod.ext hsame heq

/-! ### What a ledger holds -/

theorem ledger_nil : Ledger executed [] := by
  refine ⟨nofun, nofun, fun before i after hsplit => ?_⟩
  cases before <;> cases hsplit

theorem Ledger.append (h : Ledger executed listed) (hi : Accepted executed i)
    (hruns : i.Runs executed) (hinputs : ∀ input ∈ i.inputs.values, MadeBy listed input) :
    Ledger executed (listed ++ [i]) := by
  have hmem {x : Instance} (hx : x ∈ listed ++ [i]) : x ∈ listed ∨ x = i := by simpa using hx
  constructor
  case accepted =>
    intro x hx
    rcases hmem hx with hx | rfl
    · exact h.accepted x hx
    · exact hi
  case runs =>
    intro x hx
    rcases hmem hx with hx | rfl
    · exact h.runs x hx
    · exact hruns
  case backward =>
    intro before x after hsplit
    rcases append_singleton_eq_iff.1 hsplit with ⟨-, rfl, rfl⟩ | ⟨rest, -, hlisted⟩
    · exact hinputs
    · exact h.backward before x rest hlisted

/-- The instances of a ledger go together in one graph. -/
theorem Ledger.compatible (h : Ledger executed listed) (hunambiguous : Unambiguous executed) :
    Dag.Compatible listed := by
  have hguids : ∀ i ∈ listed, ∀ j ∈ listed, i.guid = j.guid → i = j := fun i hi j hj hguid =>
    (h.runs i hi).eq_of_guid (h.runs j hj) hunambiguous (h.accepted i hi) (h.accepted j hj) hguid
  refine ⟨fun i hi => (h.accepted i hi).verified, hguids,
    fun i hi => hunambiguous.nodup_outputs (h.accepted i hi), fun i hi j hj output ho ho' => ?_⟩
  obtain ⟨slot, hslot⟩ := Instance.mem_values_iff.1 ho
  obtain ⟨slot', hslot'⟩ := Instance.mem_values_iff.1 ho'
  obtain ⟨hguid, -⟩ := hunambiguous.output_unique (h.accepted i hi) (h.accepted j hj) hslot hslot'
  exact hguids i hi j hj hguid

theorem Ledger.denotes (h : Ledger executed listed) (hunambiguous : Unambiguous executed)
    (hguid : MadeBy listed guid) : ∃ entity, Denotes executed guid entity := by
  obtain ⟨i, hi, houtput⟩ := hguid
  exact (h.runs i hi).denotes hunambiguous (h.accepted i hi) houtput

/-- What the outputs in a ledger refer to are outputs in it. -/
theorem Ledger.references (h : Ledger executed listed) (hunambiguous : Unambiguous executed)
    (hentity : Denotes executed guid entity) (hguid : MadeBy listed guid) :
    ∀ r ∈ entity.references, MadeBy listed r := by
  -- the listed instance and the one that the guid denotes an output of differ at most in slots
  have howner {i : Instance} {slot : String} {guid : Guid} (hguid : MadeBy listed guid)
      (hi : Accepted executed i) (hslot : i.outputs.get? slot = some guid) :
      ∃ j ∈ listed, j.guid = i.guid ∧ j.className = i.className ∧ j.inputs = i.inputs := by
    obtain ⟨j, hj, houtput⟩ := hguid
    obtain ⟨slot', hslot'⟩ := Instance.mem_values_iff.1 houtput
    obtain ⟨hguid, hdescription, hinputs, -⟩ :=
      hunambiguous.output_unique (h.accepted j hj) hi hslot' hslot
    exact ⟨j, hj, hguid, congrArg Description.className hdescription, hinputs⟩
  induction hentity with
  | @exampleGraph i vertices guid slot entity hi hclass hvertices hpart hslot =>
    intro r hr
    obtain ⟨j, hj, hsame, hclass', -⟩ := howner hguid hi hslot
    have hcontains : j.outputs.contains "vertices" := by
      rw [(h.runs j hj).contains_iff, hclass', hclass]
      decide
    obtain ⟨found, hfound⟩ := Option.isSome_iff_exists.1 hcontains
    have heq : found = vertices := by
      rw [(h.accepted j hj).output_eq hfound, hi.output_eq hvertices, hsame]
    rw [references_examplePart hpart r hr, ← heq]
    exact ⟨j, hj, Instance.mem_values_of_get? hfound⟩
  | constantColumn hi hclass hvalue hinput hset hslot =>
    intro r hr
    obtain ⟨j, hj, -, -, hinputs⟩ := howner hguid hi hslot
    rw [Entity.mem_references_column.1 hr]
    exact h.backward.exists_producer hj (hinputs ▸ Instance.mem_values_of_get? hinput)
  | @reverseEdges i input guid bundle hi hclass hinput hbundle hslot ih =>
    intro r hr
    obtain ⟨j, hj, -, -, hinputs⟩ := howner hguid hi hslot
    have hmade : MadeBy listed input :=
      h.backward.exists_producer hj (hinputs ▸ Instance.mem_values_of_get? hinput)
    apply ih hmade r
    rw [Entity.mem_references_edgeBundle] at hr ⊢
    exact hr.symm

end GraphVault
