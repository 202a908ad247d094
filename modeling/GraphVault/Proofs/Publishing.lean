import GraphVault.Proofs.Gathering
import GraphVault.Proofs.Operations
import GraphVault.Proofs.Saving

/-!
# Publishing outputs

The outputs of an instance are put in an order in which each of them finds the vertex sets that it
refers to: those of the inputs, and the vertex set among the outputs, which comes first. Then all of
them can be saved.
-/

namespace GraphVault

open Disk EntityDirectory

variable {i : Instance} {inputs : SortedMap String (Guid × Entity)}
  {outputs front back : List (Guid × Entity)} {output : Guid × Entity} {slot : String}
  {entity : Entity} {guid : Guid}

/-- The vertex set of the example graph. -/
def exampleSet : VertexSet := ⟨[0, 1, 2, 3]⟩

/-! ### What outputs refer to -/

private theorem vertices_of_makes (hmakes : Makes i inputs "vertices" entity) :
    entity = .vertexSet exampleSet := by
  generalize hslot : "vertices" = slot at hmakes
  cases hmakes with
  | exampleGraph _ _ hpart =>
    subst hslot
    exact exampleParts_unique hpart List.mem_cons_self
  | constantColumn => exact absurd hslot (by decide)
  | reverseEdges => exact absurd hslot (by decide)

private theorem publishRank_ne_zero (h : guid ∈ entity.references) : entity.publishRank ≠ 0 := by
  cases entity with
  | vertexSet set => cases h
  | edgeBundle bundle => exact Nat.one_ne_zero
  | column type cells => exact Nat.one_ne_zero

/-- The vertex set of the example graph comes before the parts that refer to it. -/
theorem vertices_mem_front (hhands : i.Hands (Makes i inputs) (front ++ output :: back))
    (horder : Executor.InOrder (front ++ output :: back)) (hrank : output.2.publishRank ≠ 0)
    (hslot : i.outputs.get? "vertices" = some guid) : (guid, .vertexSet exampleSet) ∈ front := by
  obtain ⟨set, hset, hmakes⟩ := hhands.complete "vertices" guid hslot
  have heq := vertices_of_makes hmakes
  subst heq
  rcases List.mem_append.1 hset with hfront | hrest
  · exact hfront
  · cases List.mem_cons.1 hrest with
    | inl hself => exact absurd (hself ▸ rfl) hrank
    | inr hback =>
      have hle := (List.pairwise_cons.1 (List.pairwise_append.1 horder).2.1).1 _ hback
      exact absurd (Nat.le_zero.1 hle) hrank

/-- What is made fits wherever the inputs do, along with the vertex set of the example graph. -/
theorem Makes.fits {resolve : Guid → Except Failure VertexSet} (hmakes : Makes i inputs slot entity)
    (hinputs : ∀ slot guid found, inputs.get? slot = some (guid, found) → found.Fits resolve ∧
      ∀ set, found = .vertexSet set → ∃ set', resolve guid = .ok set' ∧ set'.size = set.size)
    (hvertices : entity.publishRank ≠ 0 → ∀ guid, i.outputs.get? "vertices" = some guid →
      ∃ set, resolve guid = .ok set ∧ set.size = exampleSet.size) :
    entity.Fits resolve := by
  cases hmakes with
  | @exampleGraph vertices _ _ _ hslot hpart =>
    let found (_ : Guid) : Except Failure VertexSet := .ok exampleSet
    have hfits : entity.Fits found := (examplePart_spec rfl hpart).1
    refine hfits.congr fun r hr set hset => ?_
    cases hset
    rw [references_examplePart hpart r hr]
    exact hvertices (publishRank_ne_zero hr) vertices hslot
  | constantColumn _ _ hinput =>
    obtain ⟨set, hset, hsize⟩ := (hinputs _ _ _ hinput).2 _ rfl
    exact ⟨set, hset, hsize ▸ aligned_constant _ _ _⟩
  | reverseEdges _ hinput => exact (hinputs _ _ _ hinput).1.reverse

namespace Vault

variable {vault now after : Vault} {root : String} {b : Address}

/-! ### Putting outputs -/

/-- What is made of what a store has fits as long as the vertex sets of the store keep their sizes,
along with the vertex set of the example graph. -/
theorem fits_of_makes (hfitting : vault.Fitting)
    (hbinds : i.Binds (fun guid entity => vault.get? guid = some entity) inputs)
    (hkeeps : vault.KeepsSets now) (hmakes : Makes i inputs slot entity)
    (hvertices : entity.publishRank ≠ 0 → ∀ guid, i.outputs.get? "vertices" = some guid →
      ∃ set, now.get? guid = some (.vertexSet set) ∧ set.size = exampleSet.size) :
    entity.Fits now.registered := by
  apply hmakes.fits
  · intro slot guid found hinput
    obtain ⟨-, hfound⟩ := hbinds.sound slot guid found hinput
    refine ⟨hkeeps.fits (hfitting guid found hfound), ?_⟩
    rintro set rfl
    obtain ⟨set', hset', hsize⟩ := hkeeps guid set hfound
    exact ⟨set', registered_eq_ok_iff.2 hset', hsize⟩
  · intro hrank guid hslot
    obtain ⟨set, hset, hsize⟩ := hvertices hrank guid hslot
    exact ⟨set, registered_eq_ok_iff.2 hset, hsize⟩

/-- A store with several entities more in memory. -/
def insertAll (vault : Vault) (outputs : List (Guid × Entity)) : Vault :=
  outputs.foldl (fun vault output => vault.insert output.1 output.2) vault

theorem insertAll_eq (vault : Vault) (outputs : List (Guid × Entity)) :
    vault.insertAll outputs = { vault with entities := (vault.insertAll outputs).entities } := by
  induction outputs generalizing vault with
  | nil => rfl
  | cons output outputs ih => exact ih (vault.insert output.1 output.2)

theorem get?_insertAll_of_not_mem (vault : Vault) (h : guid ∉ outputs.map (·.1)) :
    (vault.insertAll outputs).get? guid = vault.get? guid := by
  induction outputs generalizing vault with
  | nil => rfl
  | cons output outputs ih =>
    rw [List.map_cons, List.mem_cons, not_or] at h
    exact (ih _ h.2).trans (get?_insert_of_ne vault _ h.1)

theorem get?_insertAll_of_mem (vault : Vault) (hnodup : (outputs.map (·.1)).Nodup)
    (h : (guid, entity) ∈ outputs) : (vault.insertAll outputs).get? guid = some entity := by
  induction outputs generalizing vault with
  | nil => cases h
  | cons output outputs ih =>
    rw [List.map_cons, List.nodup_cons] at hnodup
    cases List.mem_cons.1 h with
    | inl heq =>
      subst heq
      exact (get?_insertAll_of_not_mem _ hnodup.1).trans (get?_insert_self vault _ _)
    | inr hmem => exact ih _ hnodup.2 hmem

/-- Outputs that fit what is registered before them are registered under free guids. -/
theorem puts_yields (hfree : ∀ output ∈ outputs, now.get? output.1 = none)
    (hnodup : (outputs.map (·.1)).Nodup)
    (hfits : ∀ front output back, outputs = front ++ output :: back →
      output.2.Fits (now.insertAll front).registered) :
    Yields (outputs.forM fun (guid, entity) => do let _ ← put guid entity) now
      (fun _ after => after = now.insertAll outputs) fun _ _ => False := by
  induction outputs generalizing now with
  | nil => exact rfl
  | cons output outputs ih =>
    rw [List.map_cons, List.nodup_cons] at hnodup
    simp only [List.forM_eq_forM, List.forM_cons, yields_bind, yields_pure]
    have hput := put_of_fits (hfree output List.mem_cons_self) (hfits [] output outputs rfl)
    apply hput.mono ?_ fun _ _ hfalse => hfalse
    rintro - _ rfl
    refine ih (fun other hother => ?_) hnodup.2 fun front other back heq => ?_
    · have hne : other.1 ≠ output.1 := by
        intro heq
        exact hnodup.1 (heq ▸ List.mem_map_of_mem hother)
      rw [get?_insert_of_ne now _ hne]
      exact hfree other (List.mem_cons_of_mem output hother)
    · exact hfits (output :: front) other back (by rw [heq]; rfl)

/-- Nothing is lost where outputs are put under free guids. -/
theorem keepsSets_insertAll (hfree : ∀ output ∈ outputs, now.get? output.1 = none) :
    now.KeepsSets (now.insertAll outputs) := by
  intro guid set hset
  refine ⟨set, ?_, rfl⟩
  rw [get?_insertAll_of_not_mem now, hset]
  intro hmem
  obtain ⟨output, houtput, rfl⟩ := List.mem_map.1 hmem
  rw [hfree output houtput] at hset
  cases hset

/-! ### Saving outputs -/

/-- A store with its catalog changed, if there is one. -/
def withCatalog (vault : Vault) (change : Catalog → Catalog) : Vault :=
  match vault.catalog with
  | none => vault
  | some id => { vault with disk := vault.disk.setCatalog id (change (vault.disk.catalog id)) }

@[simp] theorem entities_withCatalog (vault : Vault) (change : Catalog → Catalog) :
    (vault.withCatalog change).entities = vault.entities := by
  unfold withCatalog
  split <;> rfl

@[simp] theorem settings_withCatalog (vault : Vault) (change : Catalog → Catalog) :
    (vault.withCatalog change).settings = vault.settings := by
  unfold withCatalog
  split <;> rfl

@[simp] theorem catalog_withCatalog (vault : Vault) (change : Catalog → Catalog) :
    (vault.withCatalog change).catalog = vault.catalog := by
  unfold withCatalog
  split <;> rfl

@[simp] theorem nodes_withCatalog (vault : Vault) (change : Catalog → Catalog) :
    (vault.withCatalog change).disk.nodes = vault.disk.nodes := by
  unfold withCatalog
  split <;> rfl

theorem Sturdy.withCatalog (h : vault.Sturdy root b) {change : Catalog → Catalog}
    (hchange : ∀ catalog : Catalog, catalog.Legible → (change catalog).Legible) :
    (vault.withCatalog change).Sturdy root b := by
  unfold Vault.withCatalog
  split
  · exact h
  · rename_i id hid
    exact h.setCatalog (hchange _ (h.legible id hid))

/-- An entity is in memory with the vertex sets that it refers to. -/
def Holds (vault : Vault) (guid : Guid) : Prop :=
  ∃ entity, vault.get? guid = some entity ∧
    ∀ r ∈ entity.references, ∃ set, vault.get? r = some (.vertexSet set)

private theorem persists_enrich (h : vault.Sturdy root b)
    (hholds : ∀ output ∈ outputs, vault.Holds output.1) (producer : Option Guid) :
    Yields (outputs.forM fun (guid, _) => do let _ ← persistFrom guid producer) vault
      (fun _ after => vault.Enriches root b after ∧
        ∀ output ∈ outputs, after.hasPersisted output.1) fun _ _ => False := by
  have hround : ∀ output ∈ outputs, ∀ now, vault.Enriches root b now →
      Yields (do let _ ← persistFrom output.1 producer) now
        (fun _ after => vault.Enriches root b after ∧ after.hasPersisted output.1 ∧
          ∀ other : Guid × Entity, now.hasPersisted other.1 → after.hasPersisted other.1)
        fun _ _ => False := by
    intro output houtput now hnow
    obtain ⟨entity, hentity, hsets⟩ := hholds output houtput
    have hsame (guid : Guid) : now.get? guid = vault.get? guid := by
      rw [get?, get?, hnow.entities]
    have hstill : ∀ r ∈ entity.references, ∃ set, now.get? r = some (.vertexSet set) := by
      intro r hr
      rw [hsame]
      exact hsets r hr
    simp only [yields_bind, yields_pure]
    apply (persistFrom_saves hnow.sturdy ((hsame _).trans hentity) hstill producer).mono ?_
      fun _ _ hfalse => hfalse
    rintro - after ⟨hafter, hpersisted⟩
    refine ⟨hnow.trans h hafter, hpersisted _ List.mem_cons_self, fun other hother => ?_⟩
    rw [hasPersisted, hnow.sturdy.dataDir] at hother
    rw [hasPersisted, hafter.sturdy.dataDir]
    exact hafter.contains hnow.sturdy hother
  exact yields_forM_done hround h.enriches

/-- Outputs that are in memory with what they refer to are saved, and then their instance is
recorded. -/
theorem persistOutputs_saves (h : vault.Sturdy root b)
    (hholds : ∀ output ∈ outputs, vault.Holds output.1) (i : Instance) :
    Yields (Executor.persistOutputs i outputs) vault
      (fun _ after => ∃ saved, vault.Enriches root b saved ∧
        (∀ output ∈ outputs, saved.hasPersisted output.1) ∧
        after = saved.withCatalog (·.recordInstance i)) fun _ _ => False := by
  rw [Executor.persistOutputs, yields_bind]
  apply (persists_enrich h hholds (some i.guid)).mono ?_ fun _ _ hfalse => hfalse
  rintro - saved ⟨hsaved, hpersisted⟩
  exact ⟨saved, hsaved, hpersisted, rfl⟩

end Vault

end GraphVault
