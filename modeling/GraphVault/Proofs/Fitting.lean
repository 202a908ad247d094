import GraphVault.Executor
import GraphVault.Proofs.Content

/-!
# Registered entities fit

Every entity in memory fits the vertex sets that are in memory with it. Whatever a store is asked
for, and whether it answers or fails, vertex sets that are registered stay vertex sets of their
size, so that what refers to them goes on to fit. Dropping an entity is the exception, which is
harmless as long as nothing refers to it.
-/

namespace GraphVault

-- Nothing depends on what is read from a disk or written to it.
attribute [local irreducible] EntityDirectory.read EntityDirectory.write EntityDirectory.remove
  EntityDirectory.contains

namespace Vault

/-- The vertex set that is registered under a guid. -/
def registered (vault : Vault) (guid : Guid) : Except Failure VertexSet :=
  match vault.get? guid with
  | some entity => entity.asVertexSet guid
  | none => .error (.missingEntity guid)

/-- Every registered entity fits the vertex sets that are registered. -/
def Fitting (vault : Vault) : Prop :=
  ∀ guid entity, vault.get? guid = some entity → entity.Fits vault.registered

/-- A registered entity refers to a guid. -/
def RefersTo (vault : Vault) (guid : Guid) : Prop :=
  ∃ owner entity, vault.get? owner = some entity ∧ guid ∈ entity.references

theorem registered_eq_ok_iff {vault : Vault} {guid : Guid} {set : VertexSet} :
    vault.registered guid = .ok set ↔ vault.get? guid = some (.vertexSet set) := by
  unfold registered
  split
  · rename_i entity h
    cases entity <;> simp [h, Entity.asVertexSet]
  · rename_i h
    simp [h]

/-- The vertex sets registered before are registered after, with their sizes. -/
def KeepsSets (before after : Vault) : Prop :=
  ∀ guid set, before.get? guid = some (.vertexSet set) →
    ∃ set', after.get? guid = some (.vertexSet set') ∧ set'.size = set.size

/-- What any work does to the entities in memory, unless it drops one. -/
structure Evolves (before after : Vault) : Prop where
  keepsSets : before.KeepsSets after
  fitting : before.Fitting → after.Fitting

theorem KeepsSets.fits {before after : Vault} (h : before.KeepsSets after) {entity : Entity}
    (hfits : entity.Fits before.registered) : entity.Fits after.registered := by
  refine hfits.congr fun guid _ set hset => ?_
  obtain ⟨set', hset', hsize⟩ := h guid set (registered_eq_ok_iff.1 hset)
  exact ⟨set', registered_eq_ok_iff.2 hset', hsize⟩

theorem KeepsSets.trans {a b c : Vault} (hab : a.KeepsSets b) (hbc : b.KeepsSets c) :
    a.KeepsSets c := by
  intro guid set hset
  obtain ⟨set₁, hset₁, hsize₁⟩ := hab guid set hset
  obtain ⟨set₂, hset₂, hsize₂⟩ := hbc guid set₁ hset₁
  exact ⟨set₂, hset₂, hsize₂.trans hsize₁⟩

namespace Evolves

theorem of_entities {before after : Vault} (h : after.entities = before.entities) :
    Evolves before after := by
  have hget : ∀ guid, after.get? guid = before.get? guid := by
    intro guid
    rw [Vault.get?, h]
    rfl
  have hkeeps : before.KeepsSets after := by
    intro guid set hset
    exact ⟨set, (hget guid).trans hset, rfl⟩
  refine ⟨hkeeps, fun hfitting guid entity hentity => hkeeps.fits ?_⟩
  exact hfitting guid entity ((hget guid).symm.trans hentity)

instance : Std.Refl Evolves := ⟨fun _ => of_entities rfl⟩

instance : Trans Evolves Evolves Evolves :=
  ⟨fun hab hbc => ⟨hab.keepsSets.trans hbc.keepsSets, fun h => hbc.fitting (hab.fitting h)⟩⟩

/-- An entity that fits may be registered where no vertex set is, or where one of its size is. -/
theorem insert {vault : Vault} {guid : Guid} {entity : Entity}
    (hfits : entity.Fits vault.registered)
    (hset : ∀ set, vault.get? guid = some (.vertexSet set) →
      ∃ set', entity = .vertexSet set' ∧ set'.size = set.size) :
    Evolves vault { vault with entities := vault.entities.insert guid entity } := by
  have hself : ({ vault with entities := vault.entities.insert guid entity } : Vault).get? guid
      = some entity := SortedMap.get?_insert_self _ _ _
  have hother : ∀ g, g ≠ guid →
      ({ vault with entities := vault.entities.insert guid entity } : Vault).get? g
        = vault.get? g := fun g hg => SortedMap.get?_insert_of_ne _ _ hg
  have hkeeps : vault.KeepsSets { vault with entities := vault.entities.insert guid entity } := by
    intro g set hg
    by_cases heq : g = guid
    · subst heq
      obtain ⟨set', rfl, hsize⟩ := hset set hg
      exact ⟨set', hself, hsize⟩
    · exact ⟨set, (hother g heq).trans hg, rfl⟩
  refine ⟨hkeeps, fun hfitting g e he => hkeeps.fits ?_⟩
  by_cases heq : g = guid
  · subst heq
    rw [hself, Option.some.injEq] at he
    rw [← he]
    exact hfits
  · exact hfitting g e ((hother g heq).symm.trans he)

end Evolves

/-! ### Memory -/

/-- Looking for entities finds them registered. -/
def Finds (find : Guid → VaultM Entity) : Prop :=
  ∀ guid vault, Yields (find guid) vault
    (fun entity after => vault.Evolves after ∧ after.get? guid = some entity)
    fun _ after => vault.Evolves after

theorem Finds.moves {find : Guid → VaultM Entity} (h : Finds find) (guid : Guid) :
    Moves Evolves (find guid) := fun vault =>
  (h guid vault).mono (fun _ _ h => h.1) fun _ _ h => h

theorem finds_require : Finds require := by
  intro guid vault
  simp only [require, yields_bind, yields_get]
  split
  · rename_i entity h
    exact ⟨Std.Refl.refl vault, h⟩
  · exact Std.Refl.refl vault

theorem resolveWith_yields {find : Guid → VaultM Entity} (h : Finds find) (guid : Guid)
    (vault : Vault) :
    Yields (resolveWith find guid) vault
      (fun set after => vault.Evolves after ∧ after.get? guid = some (.vertexSet set))
      fun _ after => vault.Evolves after := by
  rw [resolveWith, yields_bind]
  refine (h guid vault).mono (fun entity after hfound => ?_) fun _ _ h => h
  cases entity with
  | vertexSet set => exact hfound
  | edgeBundle bundle => exact hfound.1
  | column type cells => exact hfound.1

theorem moves_resolveWith {find : Guid → VaultM Entity} (h : Finds find) (guid : Guid) :
    Moves Evolves (resolveWith find guid) := fun vault =>
  (resolveWith_yields h guid vault).mono (fun _ _ h => h.1) fun _ _ h => h

theorem validate_yields {find : Guid → VaultM Entity} (h : Finds find) (entity : Entity)
    (guid : Guid) (vault : Vault) :
    Yields (entity.validate guid (resolveWith find)) vault
      (fun _ after => vault.Evolves after ∧ entity.Fits after.registered)
      fun _ after => vault.Evolves after := by
  cases entity with
  | vertexSet set =>
    refine yields_ofExcept (fun _ hvalid => ⟨Std.Refl.refl vault, ?_⟩) fun _ _ => Std.Refl.refl vault
    exact VertexSet.validate_eq_ok_iff.1 hvalid
  | edgeBundle bundle =>
    simp only [Entity.validate, yields_bind]
    refine (resolveWith_yields h _ vault).mono (fun source v₁ h₁ => ?_) fun _ _ h => h
    refine (resolveWith_yields h _ v₁).mono (fun destination v₂ h₂ => ?_)
      fun _ _ h => Trans.trans h₁.1 h
    have hevolves : vault.Evolves v₂ := Trans.trans h₁.1 h₂.1
    refine yields_ofExcept (fun _ hvalid => ⟨hevolves, ?_⟩) fun _ _ => hevolves
    -- the source may have been replaced while the destination was found, but not its size
    obtain ⟨source', hsource', hsize⟩ := h₂.1.keepsSets _ _ h₁.2
    have haligned := EdgeBundle.validate_eq_ok_iff.1 hvalid
    rw [← hsize] at haligned
    exact ⟨source', destination, registered_eq_ok_iff.2 hsource', registered_eq_ok_iff.2 h₂.2,
      haligned⟩
  | column type cells =>
    simp only [Entity.validate, yields_bind]
    refine (resolveWith_yields h _ vault).mono (fun set v₁ h₁ => ?_) fun _ _ h => h
    refine yields_ofExcept (fun _ hvalid => ⟨h₁.1, ?_⟩) fun _ _ => h₁.1
    exact ⟨set, registered_eq_ok_iff.2 h₁.2, Attribute.validate_eq_ok_iff.1 hvalid⟩

theorem mayReplace_vertexSet {policy : CollisionPolicy} {set : VertexSet} {entity : Entity}
    (h : mayReplace policy (.vertexSet set) entity) :
    ∃ set', entity = .vertexSet set' ∧ set'.size = set.size := by
  cases policy with
  | reject => simp [mayReplace] at h
  | overwrite =>
    cases entity with
    | vertexSet set' =>
      rw [mayReplace, Bool.and_eq_true] at h
      exact ⟨set', rfl, of_decide_eq_true h.2⟩
    | edgeBundle bundle => simp [mayReplace, Entity.kind] at h
    | column type cells => simp [mayReplace, Entity.kind] at h

theorem register_yields {vault : Vault} {entity : Entity} (hfits : entity.Fits vault.registered)
    (guid : Guid) :
    Yields (register guid entity) vault
      (fun found after => vault.Evolves after ∧ after.get? guid = some found)
      fun _ after => vault.Evolves after := by
  simp only [register, yields_bind, yields_get]
  split
  · rename_i old hold
    split
    · exact ⟨Std.Refl.refl vault, hold⟩
    · split
      · exact Std.Refl.refl vault
      · rename_i hmay
        refine ⟨Evolves.insert hfits fun set hset => ?_, SortedMap.get?_insert_self _ _ _⟩
        rw [hset, Option.some.injEq] at hold
        subst hold
        simp only [Bool.not_eq_true', Bool.not_eq_false] at hmay
        exact mayReplace_vertexSet hmay
  · rename_i hnone
    refine ⟨Evolves.insert hfits fun set hset => ?_, SortedMap.get?_insert_self _ _ _⟩
    rw [hnone] at hset
    cases hset

theorem putWith_yields {find : Guid → VaultM Entity} (h : Finds find) (guid : Guid)
    (entity : Entity) (vault : Vault) :
    Yields (putWith find guid entity) vault
      (fun found after => vault.Evolves after ∧ after.get? guid = some found)
      fun _ after => vault.Evolves after := by
  rw [putWith, yields_bind]
  refine (validate_yields h entity guid vault).mono (fun _ v₁ h₁ => ?_) fun _ _ h => h
  exact (register_yields h₁.2 guid).mono (fun _ _ h₂ => ⟨Trans.trans h₁.1 h₂.1, h₂.2⟩)
    fun _ _ h₂ => Trans.trans h₁.1 h₂

/-! ### Loading -/

theorem finds_findWith {load : Guid → VaultM Entity} (h : Finds load) : Finds (findWith load) := by
  intro guid vault
  simp only [findWith, yields_bind, yields_get]
  split
  · rename_i entity hentity
    exact ⟨Std.Refl.refl vault, hentity⟩
  · split
    · exact h guid vault
    · exact Std.Refl.refl vault

end Vault

section Layouts

variable {σ : Type} {r : σ → σ → Prop} [Std.Refl r] [Trans r r r]
  {resolve : Guid → EStateM Failure σ VertexSet}

private theorem moves_reference (h : ∀ guid, Moves r (resolve guid)) (reference : Reference)
    (guid : Guid) : Moves r (reference.resolve guid resolve) := by
  refine .bind (h _) fun set => ?_
  split
  · exact .throw _
  · exact .pure _

theorem moves_validate (h : ∀ guid, Moves r (resolve guid)) (entity : Entity) (guid : Guid) :
    Moves r (entity.validate guid resolve) := by
  cases entity with
  | vertexSet set => exact .ofExcept _
  | edgeBundle bundle => exact .bind (h _) fun _ => .bind (h _) fun _ => .ofExcept _
  | column type cells => exact .bind (h _) fun _ => .ofExcept _

theorem moves_ordered_encode (h : ∀ guid, Moves r (resolve guid)) (guid : Guid) (entity : Entity) :
    Moves r (Ordered.encode guid entity resolve) := by
  cases entity with
  | vertexSet set => exact .pure _
  | edgeBundle bundle =>
    have hreference (g : Guid) : Moves r (Ordered.reference g resolve) :=
      .bind (h g) fun _ => .pure _
    exact .bind (hreference _) fun _ => .bind (hreference _) fun _ => .pure _
  | column type cells => exact .pure _

theorem moves_ordered_decode (h : ∀ guid, Moves r (resolve guid)) (stored : Stored) :
    Moves r (Ordered.decode stored resolve) := by
  unfold Ordered.decode
  dsimp only
  split
  · exact .bind (.ofExcept _) fun _ => .pure _
  · refine .bind (.ofExcept _) fun source => .bind (.ofExcept _) fun destination => ?_
    refine .bind (moves_reference h _ _) fun _ => .bind (moves_reference h _ _) fun _ => ?_
    exact .bind (.ofExcept _) fun _ => .bind (.ofExcept _) fun _ => .pure _
  · refine .bind (.ofExcept _) fun set => .bind (moves_reference h _ _) fun _ => ?_
    exact .bind (.ofExcept _) fun _ => .bind (.ofExcept _) fun _ => .pure _

theorem moves_unordered_encode (h : ∀ guid, Moves r (resolve guid)) (guid : Guid)
    (entity : Entity) : Moves r (Unordered.encode guid entity resolve) := by
  cases entity with
  | vertexSet set => exact .pure _
  | edgeBundle bundle =>
    exact .bind (h _) fun _ => .bind (h _) fun _ => .bind (.ofExcept _) fun _ => .pure _
  | column type cells => exact .bind (h _) fun _ => .bind (.ofExcept _) fun _ => .pure _

theorem moves_unordered_decode (h : ∀ guid, Moves r (resolve guid)) (stored : Stored) :
    Moves r (Unordered.decode stored resolve) := by
  unfold Unordered.decode
  dsimp only
  split
  · exact .bind (.ofExcept _) fun _ => .bind (.ofExcept _) fun _ => .pure _
  · refine .bind (.ofExcept _) fun source => .bind (.ofExcept _) fun destination => ?_
    refine .bind (moves_reference h _ _) fun _ => .bind (moves_reference h _ _) fun _ => ?_
    exact .bind (.ofExcept _) fun _ => .bind (.ofExcept _) fun _ => .pure _
  · refine .bind (.ofExcept _) fun set => .bind (moves_reference h _ _) fun _ => ?_
    exact .bind (.ofExcept _) fun _ => .bind (.ofExcept _) fun _ => .pure _

end Layouts

namespace Vault

theorem moves_vertexSet (guid : Guid) : Moves Evolves (vertexSet guid) :=
  .bind (finds_require.moves guid) fun _ => .ofExcept _

theorem finds_loadWithin (fuel : Nat) : Finds (loadWithin fuel) := by
  induction fuel with
  | zero => exact fun guid vault => Std.Refl.refl vault
  | succ fuel ih =>
    intro guid vault
    have hfind := finds_findWith ih
    simp only [loadWithin, yields_bind, yields_get]
    refine yields_ofExcept (fun stored _ => ?_) fun _ _ => Std.Refl.refl vault
    have hreferences : Moves Evolves (stored.manifest.references.forM fun reference => do
        let _ ← findWith (loadWithin fuel) reference.guid) :=
      .forM fun reference _ => .bind (hfind.moves _) fun _ => .pure _
    refine (hreferences vault).mono (fun _ v₁ h₁ => ?_) fun _ _ h => h
    refine (moves_ordered_decode moves_vertexSet stored v₁).mono (fun entity v₂ h₂ => ?_)
      fun _ _ h₂ => Trans.trans h₁ h₂
    have hevolves : vault.Evolves v₂ := Trans.trans h₁ h₂
    exact (putWith_yields hfind guid entity v₂).mono
      (fun _ _ h₃ => ⟨Trans.trans hevolves h₃.1, h₃.2⟩) fun _ _ h₃ => Trans.trans hevolves h₃

theorem finds_load : Finds load := by
  intro guid vault
  rw [load, yields_bind, yields_get]
  exact finds_loadWithin _ guid vault

theorem finds_getOrLoad : Finds getOrLoad := finds_findWith finds_load

theorem moves_resolve (guid : Guid) : Moves Evolves (resolve guid) :=
  moves_resolveWith finds_getOrLoad guid

theorem moves_put (guid : Guid) (entity : Entity) : Moves Evolves (put guid entity) := fun vault =>
  (putWith_yields finds_getOrLoad guid entity vault).mono (fun _ _ h => h.1) fun _ _ h => h

theorem moves_importWithin (fuel : Nat) (guid : Guid) : Moves Evolves (importWithin fuel guid) := by
  induction fuel generalizing guid with
  | zero => exact .throw _
  | succ fuel ih =>
    refine .bind .get fun vault => .bind (.ofExcept _) fun stored => ?_
    refine .bind (.forM fun reference _ => ?_) fun _ => ?_
    · refine .bind .get fun vault => ?_
      dsimp only
      split
      · exact .bind (ih _) fun _ => .pure _
      · exact .pure _
    · exact .bind (moves_unordered_decode moves_resolve stored) fun entity => moves_put guid entity

/-! ### Writing -/

/-- Work on the disk leaves memory as it is. -/
theorem onDisk_yields {α : Type} (work : DiskM α) (vault : Vault) :
    Yields (onDisk work) vault (fun _ after => after.entities = vault.entities)
      fun _ after => after.entities = vault.entities := by
  unfold Yields onDisk
  cases work.run vault.disk <;> rfl

theorem modifyCatalog_yields (change : Catalog → Catalog) (vault : Vault) :
    Yields (modifyCatalog change) vault (fun _ after => after.entities = vault.entities)
      fun _ after => after.entities = vault.entities := by
  rw [modifyCatalog, yields_modify]
  split <;> rfl

theorem moves_onDisk {α : Type} (work : DiskM α) : Moves Evolves (onDisk work) := fun vault =>
  (onDisk_yields work vault).mono (fun _ _ => .of_entities) fun _ _ => .of_entities

theorem moves_modifyCatalog (change : Catalog → Catalog) :
    Moves Evolves (modifyCatalog change) := fun vault =>
  (modifyCatalog_yields change vault).mono (fun _ _ => .of_entities) fun _ _ => .of_entities

theorem moves_record (guid : Guid) (entity : Entity) (producer : Option Guid) :
    Moves Evolves (record guid entity producer) := by
  refine .bind .get fun vault => ?_
  split
  · exact .pure _
  · dsimp only
    split
    · exact .bind (.pure _) fun _ => moves_modifyCatalog _
    · exact .bind (.ofExcept _) fun _ => .bind (.pure _) fun _ => moves_modifyCatalog _

theorem moves_persistWithin (fuel : Nat) (guid : Guid) (producer : Option Guid) :
    Moves Evolves (persistWithin fuel guid producer) := by
  induction fuel generalizing guid producer with
  | zero => exact .throw _
  | succ fuel ih =>
    refine .bind (finds_require.moves guid) fun entity => ?_
    refine .bind (.forM fun reference _ => ?_) fun _ => ?_
    · refine .bind .get fun vault => ?_
      split
      · exact .bind (ih _ _) fun _ => .pure _
      · exact .pure _
    · refine .bind (moves_ordered_encode moves_resolve guid entity) fun stored => ?_
      refine .bind .get fun vault => .bind (.bind (moves_onDisk _) fun _ => .pure _) fun path => ?_
      exact .bind (moves_record guid entity producer) fun _ => .pure _

theorem moves_persistFrom (guid : Guid) (producer : Option Guid) :
    Moves Evolves (persistFrom guid producer) :=
  .bind .get fun _ => moves_persistWithin _ guid producer

theorem moves_exportUnordered (guid : Guid) : Moves Evolves (exportUnordered guid) := by
  refine .bind (finds_getOrLoad.moves guid) fun entity => ?_
  refine .bind (moves_unordered_encode moves_resolve guid entity) fun stored => ?_
  exact .bind .get fun vault => .bind (moves_onDisk _) fun _ => .pure _

end Vault

namespace Executor

open Vault

variable (registry : Registry)

theorem moves_produce (i : Instance) : Moves Evolves (produce registry i) := by
  refine .bind (.bind (.mapM fun binding _ => ?_) fun _ => .pure _) fun inputs => ?_
  · refine .bind ?_ fun _ => .pure _
    exact .tryCatch (finds_getOrLoad.moves _) fun failure => .throw _
  · exact .bind (.ofExcept _) fun context => .bind (.ofExcept _) fun outputs => .pure _

theorem moves_execute (i : Instance) : Moves Evolves (execute registry i) := by
  refine .bind (.ofExcept _) fun _ => .bind .get fun vault => ?_
  split
  · exact .pure _
  · refine .bind (moves_produce registry i) fun outputs => ?_
    refine .bind (.forM fun output _ => .bind (moves_put _ _) fun _ => .pure _) fun _ => ?_
    refine .bind .get fun vault => ?_
    split
    · refine .bind (.bind (.forM fun output _ => ?_) fun _ => moves_modifyCatalog _) fun _ => .pure _
      exact .bind (moves_persistFrom _ _) fun _ => .pure _
    · exact .pure _

theorem moves_attempt (i : Instance) : Moves Evolves (attempt registry i) := by
  refine .tryCatch (.map (moves_execute registry i)) fun failure => ?_
  cases failure <;> exact .pure _

theorem moves_run (dag : Dag) : Moves Evolves (run registry dag) := by
  refine .bind (.ofExcept _) fun waves => .bind (.mapM fun wave _ => ?_) fun _ => .pure _
  refine .bind (.mapM fun i _ => .bind (moves_attempt registry i) fun _ => .pure _) fun _ => ?_
  exact .ofExcept _

end Executor

end GraphVault
