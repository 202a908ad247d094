import GraphVault.Proofs.Executing
import GraphVault.Proofs.Publishing
import GraphVault.Proofs.Runs

/-!
# Runs over empty stores

A run that starts over an empty store has the outputs of all that is done in memory, where they fit,
and knows nothing else. So an instance that only takes outputs of what is done finds its inputs and
all that these refer to, and finds its output guids free. It fails only if its operation does.
-/

namespace GraphVault

open Disk

namespace Vault

-- What these do is known from what they yield, so that they need not be looked into.
attribute [local irreducible] EntityDirectory.read EntityDirectory.write EntityDirectory.contains

variable {vault : Vault} {root : String} {b : Address} {done : List Instance} {i : Instance}
  {guid : Guid} {entity : Entity}

/-- A store that has the outputs of what is done in memory, and knows nothing else. -/
structure Grounded (root : String) (b : Address) (done : List Instance) (vault : Vault) : Prop where
  sturdy : vault.Sturdy root b
  fitting : vault.Fitting
  outputs : ∀ j ∈ done, ∀ output ∈ j.outputs.values, ∃ entity, vault.get? output = some entity
  known : ∀ guid, vault.has guid ∨ Marked b guid vault.disk → ∃ j ∈ done, guid ∈ j.outputs.values

/-- An input in memory is found, and nothing else happens. -/
private theorem keeps_resolveInput (h : vault.get? guid = some entity) (slot : String) :
    Keeps (· = vault) Failure.OfExecution (fun found => vault.get? guid = some found)
      (Executor.resolveInput slot guid) := by
  constructor
  rintro _ rfl
  rw [Executor.resolveInput, yields_tryCatch, getOrLoad]
  apply (findWith_of_registered h).mono ?_ fun _ _ hfalse => hfalse.elim
  rintro found _ ⟨rfl, rfl⟩
  exact ⟨rfl, h⟩

/-- Outputs that are made of what is in memory fit once the ones before them are there. -/
private theorem fits_of_insertAll {inputs : SortedMap String (Guid × Entity)}
    {outputs front back : List (Guid × Entity)} {output : Guid × Entity} (h : vault.Fitting)
    (hfree : ∀ output ∈ outputs, vault.get? output.1 = none)
    (hnodup : (outputs.map (·.1)).Nodup)
    (hinputs : i.Binds (fun guid entity => vault.get? guid = some entity) inputs)
    (horder : Executor.InOrder outputs) (hhands : i.Hands (Makes i inputs) outputs)
    (hsplit : outputs = front ++ output :: back) :
    output.2.Fits (vault.insertAll front).registered := by
  subst hsplit
  have hfront : ∀ other ∈ front, vault.get? other.1 = none :=
    fun other hother => hfree other (List.mem_append_left _ hother)
  have hnodup' : (front.map (·.1)).Nodup := by
    rw [List.map_append] at hnodup
    exact (List.nodup_append.1 hnodup).1
  obtain ⟨slot, -, hmakes⟩ := hhands.sound output (List.mem_append_right _ List.mem_cons_self)
  refine fits_of_makes h hinputs (keepsSets_insertAll hfront) hmakes fun hrank vertices hslot => ?_
  have hmem := vertices_mem_front hhands horder hrank hslot
  exact ⟨exampleSet, get?_insertAll_of_mem vault hnodup' hmem, rfl⟩

private theorem Grounded.insertAll {good : String → Entity → Prop} {outputs : List (Guid × Entity)}
    (h : vault.Grounded root b done) (hhands : i.Hands good outputs)
    (hfree : ∀ output ∈ outputs, vault.get? output.1 = none)
    (hnodup : (outputs.map (·.1)).Nodup) (hfitting : (vault.insertAll outputs).Fitting) :
    (vault.insertAll outputs).Grounded root b (done ++ [i]) := by
  have hdone {guid : Guid} (hguid : ∃ j ∈ done, guid ∈ j.outputs.values) :
      ∃ j ∈ done ++ [i], guid ∈ j.outputs.values := by
    obtain ⟨j, hj, hmem⟩ := hguid
    exact ⟨j, List.mem_append_left _ hj, hmem⟩
  constructor
  case sturdy =>
    rw [insertAll_eq]
    exact h.sturdy.of_entities _
  case fitting => exact hfitting
  case outputs =>
    intro j hj output houtput
    rcases List.mem_append.1 hj with hj | hj
    · obtain ⟨entity, hentity⟩ := h.outputs j hj output houtput
      refine ⟨entity, (get?_insertAll_of_not_mem vault fun hmem => ?_).trans hentity⟩
      obtain ⟨other, hother, rfl⟩ := List.mem_map.1 hmem
      rw [hfree other hother] at hentity
      cases hentity
    · rw [List.mem_singleton.1 hj] at houtput
      obtain ⟨slot, hslot⟩ := Instance.mem_values_iff.1 houtput
      obtain ⟨entity, hentity, -⟩ := hhands.complete slot output hslot
      exact ⟨entity, get?_insertAll_of_mem vault hnodup hentity⟩
  case known =>
    intro guid hguid
    by_cases hmem : guid ∈ outputs.map (·.1)
    · exact ⟨i, List.mem_append_right _ (List.mem_singleton_self i), hhands.mem_guids_iff.1 hmem⟩
    · refine hdone (h.known guid (hguid.imp (fun hhas => ?_) fun hmarked => ?_))
      · rw [has_iff, get?_insertAll_of_not_mem vault hmem] at hhas
        exact has_iff.2 hhas
      · rw [insertAll_eq] at hmarked
        exact hmarked

/-- Saving what is in memory makes nothing else known. -/
private theorem Grounded.saved {saved : Vault} (h : vault.Grounded root b done)
    (hsaved : vault.Enriches root b saved) {change : Catalog → Catalog}
    (hchange : ∀ catalog : Catalog, catalog.Legible → (change catalog).Legible) :
    (saved.withCatalog change).Grounded root b done := by
  have hentities : (saved.withCatalog change).entities = vault.entities := by
    rw [entities_withCatalog, hsaved.entities]
  constructor
  case sturdy => exact hsaved.sturdy.withCatalog hchange
  case fitting => exact (Evolves.of_entities hentities).fitting h.fitting
  case outputs =>
    intro j hj output houtput
    rw [get?, hentities]
    exact h.outputs j hj output houtput
  case known =>
    rintro guid (hhas | hmarked)
    · rw [has, hentities] at hhas
      exact h.known guid (.inl hhas)
    · have hmarked' : Marked b guid saved.disk :=
        (spares_of_nodes (nodes_withCatalog saved change).symm).marked hmarked
      exact h.known guid (hsaved.marks guid hmarked').symm

private theorem moves_puts (outputs : List (Guid × Entity)) :
    Moves Evolves (outputs.forM fun (guid, entity) => do let _ ← put guid entity) :=
  .forM fun _ _ => .bind (moves_put _ _) fun _ => .pure _

/-- An instance that takes outputs of what is done, and makes new ones, gets done unless its
operation fails. -/
theorem Grounded.execute (h : vault.Grounded root b done) (hverified : i.verify = .ok ())
    (hnodup : i.outputs.values.Nodup)
    (hinputs : ∀ input ∈ i.inputs.values, ∃ j ∈ done, input ∈ j.outputs.values)
    (hnew : ∀ output ∈ i.outputs.values, ∀ j ∈ done, output ∉ j.outputs.values)
    (hruns : ∀ inputs, Computes Failure.OfExecution (Context.Serves i (Makes i inputs))
      (Registry.builtin.run i.description (Context.start i inputs))) :
    Yields (Executor.execute Registry.builtin i) vault
      (fun _ after => after.Grounded root b (done ++ [i]))
      fun failure after => after.Grounded root b done ∧ failure.OfExecution := by
  have hunknown : ∀ output ∈ i.outputs.values,
      ¬ (vault.has output ∨ Marked b output vault.disk) := by
    intro output houtput hknown
    obtain ⟨j, hj, hmem⟩ := h.known output hknown
    exact hnew output houtput j hj hmem
  have hcached : Executor.isCached vault i = false := by
    rw [Bool.eq_false_iff]
    intro hcached
    obtain ⟨⟨output, houtput⟩, hknown⟩ := Executor.isCached_iff.1 hcached
    refine hunknown output houtput ((hknown output houtput).imp id fun hpersisted => ?_)
    rw [hasPersisted, h.sturdy.dataDir] at hpersisted
    exact marked_of_contains h.sturdy.usable hpersisted
  have hresolve : Keeps (· = vault) Failure.OfExecution
      (i.Binds fun guid entity => vault.get? guid = some entity) (Executor.resolveInputs i) := by
    refine Executor.keeps_resolveInputs fun slot guid hslot => ?_
    obtain ⟨j, hj, hmem⟩ := hinputs guid (Instance.mem_values_iff.2 ⟨slot, hslot⟩)
    obtain ⟨entity, hentity⟩ := h.outputs j hj guid hmem
    exact keeps_resolveInput hentity slot
  have hproduce := Executor.keeps_produce hresolve (fun inputs _ => hruns inputs) fun _ hf => hf
  simp only [Executor.execute, yields_bind, hverified, yields_ofExcept_ok, yields_get, hcached,
    Bool.false_eq_true, if_false]
  apply (hproduce.yields vault rfl).mono ?_ fun failure after hafter => ⟨hafter.1 ▸ h, hafter.2⟩
  rintro outputs now ⟨hnow, horder, inputs, hbinds, hhands⟩
  rw [hnow]
  have hfree : ∀ output ∈ outputs, vault.get? output.1 = none := by
    intro output houtput
    rw [Option.eq_none_iff_forall_ne_some]
    intro entity hentity
    have hmem := hhands.mem_guids_iff.1 (List.mem_map_of_mem houtput)
    exact hunknown _ hmem (.inl (has_iff.2 ⟨entity, hentity⟩))
  have hguids := hhands.nodup hnodup
  have hputs := puts_yields hfree hguids fun _ _ _ hsplit =>
    fits_of_insertAll h.fitting hfree hguids hbinds horder hhands hsplit
  apply (hputs.and (moves_puts outputs vault)).mono ?_ fun _ _ hfalse => hfalse.1.elim
  rintro - _ ⟨rfl, hevolved⟩
  have hfilled := h.insertAll hhands hfree hguids (hevolved.fitting h.fitting)
  have hentities : ∀ output ∈ outputs, (vault.insertAll outputs).get? output.1 = some output.2 :=
    fun output houtput => get?_insertAll_of_mem vault hguids houtput
  split
  · have hholds : ∀ output ∈ outputs, (vault.insertAll outputs).Holds output.1 := by
      intro output houtput
      refine ⟨output.2, hentities output houtput, fun r hr => ?_⟩
      obtain ⟨set, hset⟩ := (hfilled.fitting _ _ (hentities output houtput)).resolved hr
      exact ⟨set, registered_eq_ok_iff.1 hset⟩
    rw [yields_bind]
    apply (persistOutputs_saves hfilled.sturdy hholds i).mono ?_
      fun _ _ hfalse => hfalse.elim
    rintro - _ ⟨saved, hsaved, -, rfl⟩
    exact hfilled.saved hsaved fun _ hlegible => hlegible
  · exact hfilled

end Vault

namespace Executor

variable {vault : Vault} {root : String} {b : Address} {listed : List Instance} {dag : Dag}

end Executor

end GraphVault
