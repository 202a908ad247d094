import GraphVault.Operation.Instance
import Mathlib.Data.List.Nodup

/-!
# Guids are derived from content

The content that a guid is the digest of tells apart everything that goes into it. So where no two
contents share a digest, the guid of an output stands for one instance content and one slot.
-/

namespace GraphVault

theorem Bytes.ofText_injective {s t : String} (h : ofText s = ofText t) : s = t := by
  have htext := text?_ofText s
  rw [h, text?_ofText] at htext
  exact (Option.some.inj htext).symm

theorem LittleEndian.encode_injective {width m n : Nat} (hm : m < 256 ^ width)
    (hn : n < 256 ^ width) (h : encode width m = encode width n) : m = n := by
  have hdecode := decode_encode hm
  rw [h, decode_encode hn] at hdecode
  exact hdecode.symm

theorem Guid.eq_of_bytes {g h : Guid} (heq : g.bytes = h.bytes) : g = h := by
  cases g
  cases h
  cases heq
  rfl

namespace Derivation

/-- A field ends where its length says. -/
theorem field_append_inj {a b rest rest' : Bytes} (ha : a.length < 2 ^ 64) (hb : b.length < 2 ^ 64)
    (h : field a ++ rest = field b ++ rest') : a = b ∧ rest = rest' := by
  rw [field, field, List.append_assoc, List.append_assoc] at h
  obtain ⟨hcount, hbytes⟩ := List.append_inj h (by simp)
  have hlength := LittleEndian.encode_injective ha hb hcount
  exact List.append_inj hbytes hlength

theorem field_inj {a b : Bytes} (ha : a.length < 2 ^ 64) (hb : b.length < 2 ^ 64)
    (h : field a = field b) : a = b := by
  rw [← List.append_nil (field a), ← List.append_nil (field b)] at h
  exact (field_append_inj ha hb h).1

/-- The content of an output tells its instance and its slot. -/
theorem outputContent_inj {owner owner' : Guid} {slot slot' : String}
    (hslot : (Bytes.ofText slot).length < 2 ^ 64) (hslot' : (Bytes.ofText slot').length < 2 ^ 64)
    (h : outputContent owner slot = outputContent owner' slot') : owner = owner' ∧ slot = slot' := by
  rw [outputContent, outputContent] at h
  have htail := List.append_cancel_left h
  have hlength : owner.bytes.length = owner'.bytes.length := by
    rw [owner.length_bytes, owner'.length_bytes]
  obtain ⟨howner, hfield⟩ := List.append_inj htail hlength
  exact ⟨Guid.eq_of_bytes howner, Bytes.ofText_injective (field_inj hslot hslot' hfield)⟩

private theorem inputs_inj {bindings bindings' : List (String × Guid)}
    (hslots : ∀ b ∈ bindings, (Bytes.ofText b.1).length < 2 ^ 64)
    (hslots' : ∀ b ∈ bindings', (Bytes.ofText b.1).length < 2 ^ 64)
    (hlength : bindings.length = bindings'.length)
    (h : bindings.flatMap input = bindings'.flatMap input) : bindings = bindings' := by
  induction bindings generalizing bindings' with
  | nil =>
    cases bindings' with
    | nil => rfl
    | cons b' bindings' => cases hlength
  | cons b bindings ih =>
    cases bindings' with
    | nil => cases hlength
    | cons b' bindings' =>
      rw [List.flatMap_cons, List.flatMap_cons, input, input, List.append_assoc,
        List.append_assoc] at h
      obtain ⟨hslot, hrest⟩ := field_append_inj (hslots b List.mem_cons_self)
        (hslots' b' List.mem_cons_self) h
      have hguids : b.2.bytes.length = b'.2.bytes.length := by
        rw [b.2.length_bytes, b'.2.length_bytes]
      obtain ⟨hguid, htail⟩ := List.append_inj hrest hguids
      have hhead : b = b' := Prod.ext (Bytes.ofText_injective hslot) (Guid.eq_of_bytes hguid)
      have hbindings := ih (fun c hc => hslots c (List.mem_cons_of_mem _ hc))
        (fun c hc => hslots' c (List.mem_cons_of_mem _ hc)) (Nat.succ.inj hlength) htail
      rw [hhead, hbindings]

end Derivation

namespace Instance

open GraphVault.Derivation

/-- All parts of an instance are so long that their lengths fit into words. -/
structure Measured (i : Instance) : Prop where
  className : (Bytes.ofText i.className).length < 2 ^ 64
  params : i.description.params.length < 2 ^ 64
  inputs : i.inputs.size < 2 ^ 64
  inputSlots : ∀ binding ∈ i.inputs.entries, (Bytes.ofText binding.1).length < 2 ^ 64
  outputSlots : ∀ binding ∈ i.outputs.entries, (Bytes.ofText binding.1).length < 2 ^ 64

/-- The content of an instance tells its description and its inputs. -/
theorem Measured.instanceContent_inj {i j : Instance} (hi : i.Measured) (hj : j.Measured)
    (h : instanceContent i.description i.inputs = instanceContent j.description j.inputs) :
    i.description = j.description ∧ i.inputs = j.inputs := by
  rw [instanceContent, instanceContent] at h
  obtain ⟨hclass, h⟩ := field_append_inj hi.className hj.className (List.append_cancel_left h)
  obtain ⟨hparams, h⟩ := field_append_inj hi.params hj.params h
  obtain ⟨hcount, h⟩ := List.append_inj h (by simp)
  have hsize := LittleEndian.encode_injective hi.inputs hj.inputs hcount
  have hentries := inputs_inj hi.inputSlots hj.inputSlots hsize h
  have hname := Bytes.ofText_injective hclass
  constructor
  · exact (Description.mk.injEq _ _ _ _).mpr ⟨hname, hparams⟩
  · refine SortedMap.ext fun slot => ?_
    rw [SortedMap.get?, SortedMap.get?, hentries]

private theorem verifyOutputs_eq_ok_iff {guid : Guid} {outputs : List (String × Guid)} :
    verifyOutputs guid outputs = .ok () ↔
      ∀ binding ∈ outputs, binding.2 = outputGuid guid binding.1 := by
  induction outputs with
  | nil => simp [verifyOutputs]
  | cons binding outputs ih =>
    obtain ⟨slot, declared⟩ := binding
    rw [verifyOutputs]
    by_cases h : outputGuid guid slot = declared
    · simp [h, ih]
    · have hne : ¬ declared = outputGuid guid slot := fun heq => h heq.symm
      simp [h, hne]

/-- An instance is accepted if its guid and those of its outputs are derived. -/
theorem verify_eq_ok_iff {i : Instance} :
    i.verify = .ok () ↔ i.guid = instanceGuid i.description i.inputs ∧
      ∀ slot guid, i.outputs.get? slot = some guid → guid = outputGuid i.guid slot := by
  have hentries : (∀ slot guid, i.outputs.get? slot = some guid → guid = outputGuid i.guid slot) ↔
      ∀ binding ∈ i.outputs.entries, binding.2 = outputGuid i.guid binding.1 := by
    constructor
    · intro h binding hbinding
      exact h _ _ (SortedMap.get?_eq_some_iff.2 hbinding)
    · intro h slot guid hget
      exact h _ (SortedMap.get?_eq_some_iff.1 hget)
  rw [hentries, verify]
  by_cases h : instanceGuid i.description i.inputs = i.guid
  · simp [h, verifyOutputs_eq_ok_iff]
  · have hne : ¬ i.guid = instanceGuid i.description i.inputs := fun heq => h heq.symm
    simp [h, hne]

theorem verify_derive (description : Description) (inputs : Slots) (slots : List String) :
    (derive description inputs slots).verify = .ok () := by
  refine verify_eq_ok_iff.2 ⟨rfl, fun slot guid hslot => ?_⟩
  obtain ⟨other, -, heq⟩ := List.mem_map.1 (SortedMap.mem_of_get?_ofList hslot)
  cases heq
  rfl

/-- An instance whose guids are derived is derived from its description, inputs and slots. -/
theorem derive_eq {i : Instance} (h : i.verify = .ok ()) {slots : List String}
    (hslots : ∀ slot, slot ∈ slots ↔ i.outputs.contains slot) :
    derive i.description i.inputs slots = i := by
  obtain ⟨hguid, houtputs⟩ := verify_eq_ok_iff.1 h
  have hderived : derive i.description i.inputs slots = ⟨i.guid, i.inputs,
      SortedMap.ofList (slots.map fun slot => (slot, outputGuid i.guid slot)), i.description⟩ := by
    rw [hguid]
    rfl
  have hsame : SortedMap.ofList (slots.map fun slot => (slot, outputGuid i.guid slot))
      = i.outputs := by
    refine SortedMap.ext fun slot => ?_
    have hkeys : (SortedMap.ofList (slots.map fun slot => (slot, outputGuid i.guid slot))).contains
        slot ↔ i.outputs.contains slot := by
      rw [SortedMap.contains_ofList_iff, List.map_map, ← hslots]
      simp
    cases hget : i.outputs.get? slot with
    | none => simpa [SortedMap.contains, hget] using hkeys
    | some guid =>
      have hcontains := hkeys.2 (by rw [SortedMap.contains, hget]; rfl)
      obtain ⟨found, hfound⟩ := Option.isSome_iff_exists.1 hcontains
      obtain ⟨other, -, heq⟩ := List.mem_map.1 (SortedMap.mem_of_get?_ofList hfound)
      cases heq
      exact hfound.trans (congrArg some (houtputs slot guid hget).symm)
  rw [hderived, hsame]

private theorem verifyOutputs_error {guid : Guid} {outputs : List (String × Guid)}
    {failure : Failure} (h : verifyOutputs guid outputs = .error failure) :
    ∃ declared derived, failure = .guidMismatch declared derived := by
  induction outputs with
  | nil => cases h
  | cons binding outputs ih =>
    obtain ⟨slot, declared⟩ := binding
    rw [verifyOutputs] at h
    by_cases heq : outputGuid guid slot = declared
    · rw [if_pos heq] at h
      exact ih h
    · rw [if_neg heq] at h
      cases h
      exact ⟨_, _, rfl⟩

theorem verify_error {i : Instance} {failure : Failure} (h : i.verify = .error failure) :
    ∃ declared derived, failure = .guidMismatch declared derived := by
  rw [verify] at h
  by_cases heq : instanceGuid i.description i.inputs = i.guid
  · rw [if_pos heq] at h
    exact verifyOutputs_error h
  · rw [if_neg heq] at h
    cases h
    exact ⟨_, _, rfl⟩

end Instance

/-- An instance that is executed and whose guids are derived from its content. -/
structure Accepted (executed : Instance → Prop) (i : Instance) : Prop where
  executed : executed i
  verified : i.verify = .ok ()

/-- The contents that are hashed to accept instances. -/
def Hashed (executed : Instance → Prop) (content : Bytes) : Prop :=
  ∃ i, Accepted executed i ∧
    (content = Derivation.instanceContent i.description i.inputs ∨
      ∃ slot guid, i.outputs.get? slot = some guid ∧
        content = Derivation.outputContent i.guid slot)

/-- No two contents that are hashed share a digest. -/
def CollisionFree (executed : Instance → Prop) : Prop :=
  ∀ content content', Hashed executed content → Hashed executed content' →
    Blake3.hash content = Blake3.hash content' → content = content'

/-- Instances of which every guid stands for one content. -/
structure Unambiguous (executed : Instance → Prop) : Prop where
  measured : ∀ i, executed i → i.Measured
  collisionFree : CollisionFree executed

variable {executed executed' : Instance → Prop}

theorem Accepted.mono {i : Instance} (h : Accepted executed i)
    (hsub : ∀ i, executed i → executed' i) : Accepted executed' i :=
  ⟨hsub i h.executed, h.verified⟩

theorem Accepted.output_eq {i : Instance} {slot : String} {guid : Guid} (h : Accepted executed i)
    (hslot : i.outputs.get? slot = some guid) : guid = Derivation.outputGuid i.guid slot :=
  (Instance.verify_eq_ok_iff.1 h.verified).2 slot guid hslot

theorem Unambiguous.mono (h : Unambiguous executed') (hsub : ∀ i, executed i → executed' i) :
    Unambiguous executed := by
  have hhashed {content : Bytes} (hcontent : Hashed executed content) :
      Hashed executed' content := by
    obtain ⟨i, hi, hcontent⟩ := hcontent
    exact ⟨i, hi.mono hsub, hcontent⟩
  constructor
  · intro i hi
    exact h.measured i (hsub i hi)
  · intro content content' hcontent hcontent'
    exact h.collisionFree content content' (hhashed hcontent) (hhashed hcontent')

/-- One instance whose guids all differ is free of collisions. -/
theorem CollisionFree.of_eq {i : Instance} (hexecuted : ∀ j, executed j → j = i)
    (hdistinct : (i.guid :: i.outputs.values).Nodup) : CollisionFree executed := by
  obtain ⟨hfree, hnodup⟩ := List.nodup_cons.1 hdistinct
  have hguid {binding : String × Guid} (hmem : binding ∈ i.outputs.entries) :
      binding.2 ≠ i.guid := fun heq => hfree (heq ▸ List.mem_map_of_mem hmem)
  have hdigest {slot : String} {guid : Guid} (hi : Accepted executed i)
      (hslot : i.outputs.get? slot = some guid) :
      (slot, guid) ∈ i.outputs.entries ∧
        guid.bytes = Blake3.hash (Derivation.outputContent i.guid slot) :=
    ⟨SortedMap.get?_eq_some_iff.1 hslot, congrArg Guid.bytes (hi.output_eq hslot)⟩
  have hinstance (hi : Accepted executed i) :
      i.guid.bytes = Blake3.hash (Derivation.instanceContent i.description i.inputs) :=
    congrArg Guid.bytes (Instance.verify_eq_ok_iff.1 hi.verified).1
  intro content content' hcontent hcontent' hhash
  obtain ⟨j, hj, hcontent⟩ := hcontent
  obtain ⟨j', hj', hcontent'⟩ := hcontent'
  obtain rfl := hexecuted j hj.executed
  obtain rfl := hexecuted j' hj'.executed
  obtain rfl | ⟨slot, guid, hslot, rfl⟩ := hcontent
  · obtain rfl | ⟨slot', guid', hslot', rfl⟩ := hcontent'
    · rfl
    · obtain ⟨hmem, hbytes⟩ := hdigest hj hslot'
      rw [← hinstance hj, ← hbytes] at hhash
      exact absurd (Guid.eq_of_bytes hhash).symm (hguid hmem)
  · obtain ⟨hmem, hbytes⟩ := hdigest hj hslot
    obtain rfl | ⟨slot', guid', hslot', rfl⟩ := hcontent'
    · rw [← hinstance hj, ← hbytes] at hhash
      exact absurd (Guid.eq_of_bytes hhash) (hguid hmem)
    · obtain ⟨hmem', hbytes'⟩ := hdigest hj hslot'
      rw [← hbytes, ← hbytes'] at hhash
      have heq := List.inj_on_of_nodup_map hnodup hmem hmem' (Guid.eq_of_bytes hhash)
      rw [(Prod.mk.inj heq).1]

/-- The guid of an instance stands for one description and one assignment of inputs. -/
theorem Unambiguous.guid_unique (h : Unambiguous executed) {i j : Instance}
    (hi : Accepted executed i) (hj : Accepted executed j) (hguid : i.guid = j.guid) :
    i.description = j.description ∧ i.inputs = j.inputs := by
  obtain ⟨hderived, -⟩ := Instance.verify_eq_ok_iff.1 hi.verified
  obtain ⟨hderived', -⟩ := Instance.verify_eq_ok_iff.1 hj.verified
  have hdigest : Derivation.instanceGuid i.description i.inputs
      = Derivation.instanceGuid j.description j.inputs := by
    rw [← hderived, ← hderived', hguid]
  have hcontent := h.collisionFree _ _ ⟨i, hi, .inl rfl⟩ ⟨j, hj, .inl rfl⟩
    (congrArg Guid.bytes hdigest)
  exact (h.measured i hi.executed).instanceContent_inj (h.measured j hj.executed) hcontent

/-- An output guid stands for one description, one assignment of inputs and one slot. -/
theorem Unambiguous.output_unique (h : Unambiguous executed) {i j : Instance}
    (hi : Accepted executed i) (hj : Accepted executed j) {slot slot' : String} {guid : Guid}
    (hslot : i.outputs.get? slot = some guid) (hslot' : j.outputs.get? slot' = some guid) :
    i.guid = j.guid ∧ i.description = j.description ∧ i.inputs = j.inputs ∧ slot = slot' := by
  have hmeasured := h.measured i hi.executed
  have hmeasured' := h.measured j hj.executed
  have hdigest : Derivation.outputGuid i.guid slot = Derivation.outputGuid j.guid slot' :=
    (hi.output_eq hslot).symm.trans (hj.output_eq hslot')
  have hcontent := h.collisionFree _ _ ⟨i, hi, .inr ⟨slot, guid, hslot, rfl⟩⟩
    ⟨j, hj, .inr ⟨slot', guid, hslot', rfl⟩⟩ (congrArg Guid.bytes hdigest)
  obtain ⟨howner, heq⟩ := Derivation.outputContent_inj
    (hmeasured.outputSlots _ (SortedMap.get?_eq_some_iff.1 hslot))
    (hmeasured'.outputSlots _ (SortedMap.get?_eq_some_iff.1 hslot')) hcontent
  obtain ⟨hdescription, hinputs⟩ := h.guid_unique hi hj howner
  exact ⟨howner, hdescription, hinputs, heq⟩

end GraphVault
