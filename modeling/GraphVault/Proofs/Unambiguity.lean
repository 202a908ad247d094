import GraphVault.Proofs.Derivation

/-!
# What a guid stands for

The byte strings that guids are digests of tell everything that went into them. So the guids of
accepted instances tell them apart, unless two strings that were hashed for them differ and share a
digest (`Derivation.guids_unambiguous`).
-/

namespace GraphVault

namespace Derivation

variable {description description' : Description} {inputs inputs' : Slots}

/-! ### Contents -/

/-- A description and inputs all of whose lengths fit into words. -/
structure Sized (description : Description) (inputs : Slots) : Prop where
  className : (Bytes.ofText description.className).length < 2 ^ 64
  params : description.params.length < 2 ^ 64
  count : inputs.size < 2 ^ 64
  slots : ∀ binding ∈ inputs.entries, (Bytes.ofText binding.1).length < 2 ^ 64

theorem Sized.measured_derive (h : Sized description inputs) {slots : List String}
    (hslots : ∀ slot ∈ slots, (Bytes.ofText slot).length < 2 ^ 64) :
    (Instance.derive description inputs slots).Measured := by
  refine ⟨h.className, h.params, h.count, h.slots, fun binding hbinding => ?_⟩
  have hlisted := SortedMap.mem_of_get?_ofList (SortedMap.get?_eq_some_iff.2 hbinding)
  obtain ⟨slot, hslot, heq⟩ := List.mem_map.1 hlisted
  rw [← congrArg Prod.fst heq]
  exact hslots slot hslot

/-- The content of an instance tells its description and its inputs. -/
theorem Sized.instanceContent_inj (h : Sized description inputs) (h' : Sized description' inputs')
    (heq : instanceContent description inputs = instanceContent description' inputs') :
    description = description' ∧ inputs = inputs' :=
  have hslots : ∀ slot ∈ ([] : List String), (Bytes.ofText slot).length < 2 ^ 64 := nofun
  (h.measured_derive hslots).instanceContent_inj (h'.measured_derive hslots) heq

/-- The domains at their beginnings tell instances from outputs. -/
theorem instanceContent_ne_outputContent (description : Description) (inputs : Slots) (owner : Guid)
    (slot : String) : instanceContent description inputs ≠ outputContent owner slot := by
  intro h
  have hinstance : instanceDomain.length = 18 := by decide +kernel
  have houtput : outputDomain.length = 16 := by decide +kernel
  have hdomain := (field_append_inj (by omega) (by omega) h).1
  have hlength := congrArg List.length hdomain
  omega

/-! ### Guids -/

/-- Two contents differ and share a digest. -/
structure Collide (content content' : Bytes) : Prop where
  differ : content ≠ content'
  digest : Blake3.hash content = Blake3.hash content'

/-- Contents of the same guid are the same, or they collide. -/
theorem collide_or_eq {content content' : Bytes}
    (h : Guid.ofContent content = Guid.ofContent content') :
    Collide content content' ∨ content = content' := by
  by_cases heq : content = content'
  · exact .inr heq
  · exact .inl ⟨heq, congrArg Guid.bytes h⟩

/-- What the guids of two instances tell about them, unless contents that were hashed for them
collide. -/
structure ToldApart (i j : Instance) : Prop where
  computation : i.guid = j.guid →
    Collide (instanceContent i.description i.inputs) (instanceContent j.description j.inputs) ∨
      i.description = j.description ∧ i.inputs = j.inputs
  shared : i.guid = j.guid → ∀ slot guid guid', i.outputs.get? slot = some guid →
    j.outputs.get? slot = some guid' → guid = guid'
  origin : ∀ slot slot' guid, i.outputs.get? slot = some guid → j.outputs.get? slot' = some guid →
    Collide (outputContent i.guid slot) (outputContent j.guid slot') ∨
      i.guid = j.guid ∧ slot = slot'
  apart : ∀ slot, j.outputs.get? slot = some i.guid →
    Collide (instanceContent i.description i.inputs) (outputContent j.guid slot)

theorem toldApart {i j : Instance} (hi : i.Measured) (hj : j.Measured) (hverified : i.verify = .ok ())
    (hverified' : j.verify = .ok ()) : ToldApart i j := by
  obtain ⟨hguid, houtputs⟩ := Instance.verify_eq_ok_iff.1 hverified
  obtain ⟨hguid', houtputs'⟩ := Instance.verify_eq_ok_iff.1 hverified'
  constructor
  case computation =>
    intro heq
    rw [hguid, hguid'] at heq
    exact (collide_or_eq heq).imp id (hi.instanceContent_inj hj)
  case shared =>
    intro heq slot guid guid' hslot hslot'
    rw [houtputs slot guid hslot, houtputs' slot guid' hslot', heq]
  case origin =>
    intro slot slot' guid hslot hslot'
    have hsame := (houtputs slot guid hslot).symm.trans (houtputs' slot' guid hslot')
    exact (collide_or_eq hsame).imp id
      (outputContent_inj (hi.outputSlots _ (SortedMap.get?_eq_some_iff.1 hslot))
        (hj.outputSlots _ (SortedMap.get?_eq_some_iff.1 hslot')))
  case apart =>
    intro slot hslot
    have hsame := hguid.symm.trans (houtputs' slot i.guid hslot)
    exact (collide_or_eq hsame).resolve_right (instanceContent_ne_outputContent _ _ _ _)

/-- An instance is accepted exactly if it is derived from its own parts. -/
theorem verify_iff_derive {i : Instance} :
    i.verify = .ok () ↔ i = .derive i.description i.inputs i.outputs.keys := by
  constructor
  · intro h
    exact (Instance.derive_eq h fun slot => SortedMap.mem_keys_iff).symm
  · intro h
    rw [h]
    exact Instance.verify_derive _ _ _

/-- Guids are unambiguous. The content of an instance tells its class, its parameters and its
inputs, that of an output tells the instance and the slot, and none is both. So the instances that
are accepted are the derived ones, and their guids tell them apart up to collisions of digests. -/
theorem guids_unambiguous :
    (∀ description description' inputs inputs', Sized description inputs →
      Sized description' inputs' →
      instanceContent description inputs = instanceContent description' inputs' →
        description = description' ∧ inputs = inputs') ∧
    (∀ owner owner' slot slot', (Bytes.ofText slot).length < 2 ^ 64 →
      (Bytes.ofText slot').length < 2 ^ 64 →
      outputContent owner slot = outputContent owner' slot' → owner = owner' ∧ slot = slot') ∧
    (∀ description inputs owner slot,
      instanceContent description inputs ≠ outputContent owner slot) ∧
    (∀ i : Instance, i.verify = .ok () ↔ i = .derive i.description i.inputs i.outputs.keys) ∧
    ∀ i j : Instance, i.Measured → j.Measured → i.verify = .ok () → j.verify = .ok () →
      ToldApart i j := by
  refine ⟨fun _ _ _ _ h h' => h.instanceContent_inj h', fun _ _ _ _ h h' => outputContent_inj h h',
    instanceContent_ne_outputContent, fun _ => verify_iff_derive, ?_⟩
  exact fun _ _ hi hj hverified hverified' => toldApart hi hj hverified hverified'

/-- The example graph with one output and with two has the same guid. -/
theorem guids_unambiguous_graphs :
    ∃ i j : Instance, i ≠ j ∧ i.guid = j.guid ∧ Sized i.description i.inputs ∧
      Sized j.description j.inputs ∧
      instanceContent i.description i.inputs = instanceContent j.description j.inputs ∧
      (i.description = j.description ∧ i.inputs = j.inputs) ∧ i.Measured ∧ j.Measured ∧
      i.verify = .ok () ∧ j.verify = .ok () ∧ ToldApart i j := by
  obtain ⟨hcontent, -, -, -, hguids⟩ := guids_unambiguous
  have hsized : Sized ⟨"ExampleGraph", []⟩ SortedMap.empty :=
    ⟨by decide, by decide, by decide, nofun⟩
  have hslots : ∀ slot ∈ ["vertices", "edges"], (Bytes.ofText slot).length < 2 ^ 64 := by decide
  have hi : (Instance.derive ⟨"ExampleGraph", []⟩ SortedMap.empty ["vertices"]).Measured :=
    hsized.measured_derive fun slot hslot =>
      hslots slot (List.mem_cons.2 (.inl (List.mem_singleton.1 hslot)))
  have hj := hsized.measured_derive hslots
  have hdiffer : Instance.derive ⟨"ExampleGraph", []⟩ SortedMap.empty ["vertices"]
      ≠ Instance.derive ⟨"ExampleGraph", []⟩ SortedMap.empty ["vertices", "edges"] := by
    intro heq
    have hsize := congrArg (fun i => i.outputs.size) heq
    revert hsize
    decide
  exact ⟨_, _, hdiffer, rfl, hsized, hsized, rfl, hcontent _ _ _ _ hsized hsized rfl, hi, hj,
    Instance.verify_derive _ _ _, Instance.verify_derive _ _ _,
    hguids _ _ hi hj (Instance.verify_derive _ _ _) (Instance.verify_derive _ _ _)⟩

end Derivation

end GraphVault
