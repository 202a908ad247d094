import GraphVault.Catalog
import GraphVault.Proofs.Derivation
import GraphVault.Proofs.Listing

/-!
# Recorded instances

A catalog that has recorded certain instances lists just these, if each of them is told by its guid
and can be written.
-/

namespace GraphVault

open Wire (Codec)

/-! ### Instances are read back -/

theorem SortedMap.ofList_entries {κ α : Type} [Ord κ] [Std.TransOrd κ] [Std.LawfulEqOrd κ]
    (m : SortedMap κ α) : ofList m.entries = m := by
  refine SortedMap.ext fun k => Option.ext fun a => ?_
  rw [get?_ofList_eq_some_iff m.nodup_keys, get?_eq_some_iff]

theorem Wire.Codec.restores_map {κ α : Type} [Ord κ] [Std.TransOrd κ] [Std.LawfulEqOrd κ]
    {key : Codec κ} {value : Codec α} {m : SortedMap κ α} (hsize : m.size < 2 ^ 64)
    (h : ∀ entry ∈ m.entries, key.Restores entry.1 ∧ value.Restores entry.2) :
    (map key value).Restores m :=
  restores_via (restores_list hsize fun entry hentry => restores_pair (h entry hentry).1
    (h entry hentry).2) (congrArg Except.ok m.ofList_entries)

private theorem restores_slots {slots : Slots} (hsize : slots.size < 2 ^ 64)
    (h : ∀ binding ∈ slots.entries, (Bytes.ofText binding.1).length < 2 ^ 64) :
    Slots.codec.Restores slots :=
  Codec.restores_map hsize fun binding hbinding =>
    ⟨Codec.restores_text (h binding hbinding), binding.2.restores_codec⟩

theorem Instance.restores_codec {i : Instance} (h : i.Measured) (houtputs : i.outputs.size < 2 ^ 64) :
    Instance.codec.Restores i := by
  refine Codec.restores_via ?_ rfl
  refine Codec.restores_pair i.guid.restores_codec ?_
  refine Codec.restores_pair (restores_slots h.inputs h.inputSlots) ?_
  refine Codec.restores_pair (restores_slots houtputs h.outputSlots) ?_
  exact Codec.restores_via
    (Codec.restores_pair (Codec.restores_text h.className) (Codec.restores_bytes h.params)) rfl

/-! ### What a catalog lists -/

namespace Catalog

/-- A catalog has recorded certain instances, and no others. -/
def Lists (listed : List Instance) (catalog : Catalog) : Prop :=
  ∀ key bytes, catalog.instances.get? key = some bytes ↔
    ∃ i ∈ listed, key = i.guid.text ∧ bytes = Instance.codec.encode i

variable {catalog after : Catalog} {listed others : List Instance} {i : Instance}

theorem lists_empty : empty.Lists [] := fun _ _ => by simp [empty]

theorem Lists.of_mem_iff (h : catalog.Lists listed) (hmem : ∀ i, i ∈ others ↔ i ∈ listed) :
    catalog.Lists others := by
  intro key bytes
  simp only [h key bytes, hmem]

/-- Records of entities are no matter for those of instances. -/
theorem Lists.congr (h : catalog.Lists listed) (hsame : after.instances = catalog.instances) :
    after.Lists listed := by
  intro key bytes
  rw [hsame]
  exact h key bytes

theorem Lists.recordInstance (h : catalog.Lists listed)
    (hunique : ∀ j ∈ listed, j.guid = i.guid → j = i) :
    (catalog.recordInstance i).Lists (listed ++ [i]) := by
  intro key bytes
  have hmem (j : Instance) : j ∈ listed ++ [i] ↔ j ∈ listed ∨ j = i := by simp
  simp only [Catalog.recordInstance, hmem]
  by_cases hkey : key = i.guid.text
  · subst hkey
    rw [SortedMap.get?_insert_self, Option.some.injEq]
    constructor
    · rintro rfl
      exact ⟨i, .inr rfl, rfl, rfl⟩
    · rintro ⟨j, hj, hguid, rfl⟩
      have heq : j = i := hj.elim (fun hj => hunique j hj (Guid.text_injective hguid).symm) id
      rw [heq]
  · rw [SortedMap.get?_insert_of_ne _ _ hkey, h key bytes]
    constructor
    · rintro ⟨j, hj, hrecord⟩
      exact ⟨j, .inl hj, hrecord⟩
    · rintro ⟨j, hj | rfl, hguid, hbytes⟩
      · exact ⟨j, hj, hguid, hbytes⟩
      · exact absurd hguid hkey

/-- A catalog lists the instances that it has recorded. -/
theorem Lists.exists_listInstances (h : catalog.Lists listed)
    (hrestores : ∀ i ∈ listed, Instance.codec.Restores i) :
    ∃ instances, catalog.listInstances = .ok instances ∧ ∀ i, i ∈ instances ↔ i ∈ listed := by
  have hfiled : Filed Instance.codec Instance.guid catalog.instances := by
    intro key bytes hget
    obtain ⟨i, hi, hkey, hbytes⟩ := (h key bytes).1 hget
    exact ⟨i, hrestores i hi, hkey, hbytes⟩
  obtain ⟨instances, hinstances, -, hsound, hcomplete⟩ := hfiled.exists_list
  refine ⟨instances, hinstances, fun i => ⟨fun hi => ?_, fun hi => ?_⟩⟩
  · obtain ⟨hreads, hholds⟩ := hsound i hi
    obtain ⟨j, hj, -, hbytes⟩ := (h _ _).1 hholds
    have hread := hreads.read_encode
    rw [hbytes, (hrestores j hj).read_encode, Except.ok.injEq] at hread
    exact hread ▸ hj
  · exact hcomplete i (hrestores i hi) ((h _ _).2 ⟨i, hi, rfl, rfl⟩)

end Catalog

end GraphVault
