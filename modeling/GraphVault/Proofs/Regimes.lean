import GraphVault.Proofs.Operations
import GraphVault.Proofs.Coherence
import GraphVault.Proofs.Executing
import GraphVault.Proofs.KeptCopies
import GraphVault.Session

/-!
# Regimes

A regime says what may be registered under each guid. If copies hold nothing else, then loading,
putting and importing register nothing else; and if its writing does no harm, so do persisting and
executing. Such work fails in no other way than the regime tolerates.
-/

namespace GraphVault

/-- An invariant of stores, what it admits under each guid, and the failures that are tolerated,
among them all that are reported and that stored references form a loop. -/
structure Regime where
  inv : Vault → Prop
  admits : Guid → Entity → Prop
  tolerates : Failure → Prop
  ordinary : ∀ failure : Failure, failure.Ordinary → tolerates failure
  loop : tolerates (.aborted .referenceLoop)
  registered : ∀ {vault guid entity}, inv vault → vault.get? guid = some entity →
    admits guid entity
  insert : ∀ {vault guid entity}, inv vault → admits guid entity →
    inv { vault with entities := vault.entities.insert guid entity }
  stored : ∀ {vault guid stored entity}, inv vault →
    EntityDirectory.read vault.disk vault.settings.dataDir guid = .ok stored →
    Described stored.manifest entity → admits guid entity

namespace Regime

open Vault

-- What is read decides nothing here but through the regime.
attribute [local irreducible] EntityDirectory.read EntityDirectory.write EntityDirectory.remove
  EntityDirectory.contains

variable (r : Regime) {guid : Guid} {entity : Entity}

instance : Failure.Lenient r.tolerates := ⟨r.ordinary⟩

/-- Work that keeps to a regime, and fails only as it tolerates. -/
abbrev Keeps {α : Type} (good : α → Prop) (work : VaultM α) : Prop :=
  GraphVault.Keeps r.inv r.tolerates good work

private theorem keeps_throw {α : Type} {good : α → Prop} {failure : Failure}
    (h : failure.Ordinary) : r.Keeps good (throw failure) := h.keeps_throw

/-! ### Memory -/

theorem keeps_require (guid : Guid) : r.Keeps (r.admits guid) (require guid) := by
  refine .bind_get fun vault h => ?_
  split
  · rename_i entity hentity
    exact ⟨h, r.registered h hentity⟩
  · exact ⟨h, r.ordinary _ fun _ => nofun⟩

theorem keeps_register (hentity : r.admits guid entity) :
    r.Keeps (r.admits guid) (register guid entity) := by
  refine .bind_get fun vault h => ?_
  cases hget : vault.get? guid with
  | none => exact ⟨r.insert h hentity, hentity⟩
  | some registered =>
    dsimp only
    split
    · exact ⟨h, r.registered h hget⟩
    · split
      · exact ⟨h, r.ordinary _ (by simp [Failure.Ordinary])⟩
      · exact ⟨r.insert h hentity, hentity⟩

theorem keeps_resolveWith {find : Guid → VaultM Entity}
    (h : r.Keeps (r.admits guid) (find guid)) :
    r.Keeps (fun set => r.admits guid (.vertexSet set)) (resolveWith find guid) := by
  refine h.bind fun entity hentity => ?_
  cases entity with
  | vertexSet set => exact .pure hentity
  | edgeBundle bundle => exact r.keeps_throw fun _ => nofun
  | column type cells => exact r.keeps_throw fun _ => nofun

theorem keeps_putWith {find : Guid → VaultM Entity} (hentity : r.admits guid entity)
    (h : ∀ guid, r.Keeps (r.admits guid) (find guid)) :
    r.Keeps (r.admits guid) (putWith find guid entity) := by
  have hresolve (reference : Guid) (_ : reference ∈ entity.references) :
      r.Keeps (fun _ => True) (resolveWith find reference) :=
    (r.keeps_resolveWith (h reference)).mono (fun _ _ => trivial) fun _ h => h
  exact (Entity.keeps_validate hresolve guid).bind fun _ _ => r.keeps_register hentity

/-! ### Loading -/

theorem keeps_findWith {load : Guid → VaultM Entity} (h : r.Keeps (r.admits guid) (load guid)) :
    r.Keeps (r.admits guid) (findWith load guid) := by
  refine .bind_get fun vault hvault => ?_
  split
  · rename_i entity hentity
    exact ⟨hvault, r.registered hvault hentity⟩
  · split
    · exact h.yields vault hvault
    · exact ⟨hvault, r.ordinary _ fun _ => nofun⟩

/-- What is read from a copy is what the regime makes of it. -/
private theorem keeps_read {disk : Disk} {root : String}
    (h : ∀ {stored entity}, EntityDirectory.read disk root guid = .ok stored →
      Described stored.manifest entity → r.admits guid entity) :
    r.Keeps (fun stored => ∀ entity, Described stored.manifest entity → r.admits guid entity)
      (MonadExcept.ofExcept (EntityDirectory.read disk root guid)) := by
  have hread := EntityDirectory.orderly_read disk root guid
  cases hresult : EntityDirectory.read disk root guid with
  | ok stored => exact .pure fun entity hentity => h hresult hentity
  | error failure =>
    rw [hresult] at hread
    exact r.keeps_throw hread

theorem keeps_loadWithin (fuel : Nat) (guid : Guid) :
    r.Keeps (r.admits guid) (loadWithin fuel guid) := by
  induction fuel generalizing guid with
  | zero => exact .throw r.loop
  | succ fuel ih =>
    have hfind (guid : Guid) := r.keeps_findWith (ih guid)
    have hvertexSet (guid : Guid) : r.Keeps (fun _ => True) (vertexSet guid) :=
      (r.keeps_resolveWith (r.keeps_require guid)).mono (fun _ _ => trivial) fun _ h => h
    refine .bind_get fun vault hvault => Keeps.yields ?_ vault hvault
    refine (r.keeps_read (r.stored hvault)).bind fun stored hstored => ?_
    refine (Keeps.forM fun reference _ => (hfind reference.guid).bind fun _ _ => .pure trivial).bind
      fun _ _ => ?_
    refine (Ordered.keeps_decode fun g _ => hvertexSet g).bind fun entity hentity => ?_
    exact r.keeps_putWith (hstored entity hentity) hfind

theorem keeps_load (guid : Guid) : r.Keeps (r.admits guid) (load guid) :=
  .bind_get fun vault hvault => (r.keeps_loadWithin _ guid).yields vault hvault

theorem keeps_getOrLoad (guid : Guid) : r.Keeps (r.admits guid) (getOrLoad guid) :=
  r.keeps_findWith (r.keeps_load guid)

theorem keeps_resolve (guid : Guid) :
    r.Keeps (fun set => r.admits guid (.vertexSet set)) (resolve guid) :=
  r.keeps_resolveWith (r.keeps_getOrLoad guid)

private theorem keeps_resolving (guid : Guid) : r.Keeps (fun _ => True) (resolve guid) :=
  (r.keeps_resolve guid).mono (fun _ _ => trivial) fun _ h => h

theorem keeps_put (hentity : r.admits guid entity) : r.Keeps (r.admits guid) (put guid entity) :=
  r.keeps_putWith hentity r.keeps_getOrLoad

/-- The exchange copies hold what is admitted. -/
def Exchanges : Prop :=
  ∀ {vault guid stored entity}, r.inv vault →
    EntityDirectory.read vault.disk vault.settings.unorderedDir guid = .ok stored →
    Described stored.manifest entity → r.admits guid entity

theorem keeps_importWithin (h : r.Exchanges) (fuel : Nat) (guid : Guid) :
    r.Keeps (r.admits guid) (importWithin fuel guid) := by
  induction fuel generalizing guid with
  | zero => exact .throw r.loop
  | succ fuel ih =>
    refine .bind_get fun vault hvault => Keeps.yields ?_ vault hvault
    refine (r.keeps_read (h hvault)).bind fun stored hstored => ?_
    refine .bind (.forM fun reference _ => .bind_get fun now hnow => ?_) fun _ _ => ?_
    · dsimp only
      split
      · exact ((ih reference.guid).bind fun _ _ => .pure trivial).yields now hnow
      · exact ⟨hnow, trivial⟩
    · refine (Unordered.keeps_decode fun g _ => r.keeps_resolving g).bind fun entity hentity => ?_
      exact r.keeps_put (hstored entity hentity)

theorem keeps_importUnordered (h : r.Exchanges) (guid : Guid) :
    r.Keeps (r.admits guid) (importUnordered guid) :=
  .bind_get fun vault hvault => (r.keeps_importWithin h _ guid).yields vault hvault

/-! ### Writing -/

/-- Dropping, writing and recording what is admitted does no harm. -/
structure Writes : Prop where
  erase : ∀ {vault}, r.inv vault → ∀ guid,
    r.inv { vault with entities := vault.entities.erase guid }
  write : ∀ {vault guid entity stored}, r.inv vault → r.admits guid entity →
    Copies guid entity stored → stored.manifest.size = UInt64.ofNat entity.size →
    Yields (EntityDirectory.write vault.settings.dataDir stored) vault.disk
      (fun _ disk => r.inv { vault with disk }) fun _ disk => r.inv { vault with disk }
  delete : ∀ {vault}, r.inv vault → ∀ guid,
    Yields (EntityDirectory.remove vault.settings.dataDir guid) vault.disk
      (fun _ disk => r.inv { vault with disk }) fun _ disk => r.inv { vault with disk }
  recordEntity : ∀ {vault id guid entity}, r.inv vault → vault.catalog = some id →
    r.admits guid entity → ∀ producer, r.inv { vault with
      disk := vault.disk.setCatalog id ((vault.disk.catalog id).recordEntity
        ⟨guid, entity.kind, UInt64.ofNat entity.size, producer⟩) }
  forgetEntity : ∀ {vault id}, r.inv vault → vault.catalog = some id → ∀ guid, r.inv { vault with
    disk := vault.disk.setCatalog id ((vault.disk.catalog id).forgetEntity guid) }
  recordInstance : ∀ {vault id}, r.inv vault → vault.catalog = some id → ∀ i, r.inv { vault with
    disk := vault.disk.setCatalog id ((vault.disk.catalog id).recordInstance i) }

variable {r}

private theorem keeps_onDisk {work : DiskM Unit} {vault : Vault}
    (h : Yields work vault.disk (fun _ disk => r.inv { vault with disk })
      fun failure disk => r.inv { vault with disk } ∧ r.tolerates failure) :
    Yields (onDisk work) vault (fun _ after => r.inv after ∧ True)
      fun failure after => r.inv after ∧ r.tolerates failure := by
  rw [onDisk_yields_iff]
  exact h.mono (fun _ _ hdisk => ⟨hdisk, trivial⟩) fun _ _ hfailure => hfailure

private theorem keeps_modifyCatalog {change : Catalog → Catalog}
    (h : ∀ {vault id}, r.inv vault → vault.catalog = some id → r.inv { vault with
      disk := vault.disk.setCatalog id (change (vault.disk.catalog id)) }) :
    r.Keeps (fun _ => True) (modifyCatalog change) := by
  constructor
  intro vault hvault
  rw [modifyCatalog, yields_modify]
  refine ⟨?_, trivial⟩
  split
  · exact hvault
  · rename_i id hid
    exact h hvault hid

theorem Writes.keeps_remove (h : r.Writes) (guid : Guid) :
    r.Keeps (fun _ => True) (remove guid) :=
  .bind_get fun _ hvault => ⟨h.erase hvault guid, trivial⟩

theorem Writes.keeps_purge (h : r.Writes) (guid : Guid) :
    r.Keeps (fun _ => True) (purge guid) := by
  refine (h.keeps_remove guid).bind fun _ _ => .bind_get fun vault hvault => ?_
  have hdelete : Yields (EntityDirectory.remove vault.settings.dataDir guid) vault.disk
      (fun _ disk => r.inv { vault with disk })
      fun failure disk => r.inv { vault with disk } ∧ r.tolerates failure := by
    apply ((h.delete hvault guid).and (EntityDirectory.remove_yields _ guid vault.disk)).mono
    · exact fun _ _ hdisk => hdisk.1
    · rintro _ disk ⟨hdisk, ⟨fault, rfl⟩, -⟩
      exact ⟨hdisk, r.ordinary _ fun _ => nofun⟩
  have hforget : r.Keeps (fun _ => True) (modifyCatalog (·.forgetEntity guid)) :=
    keeps_modifyCatalog fun hvault hid => h.forgetEntity hvault hid guid
  rw [yields_bind]
  apply (keeps_onDisk hdelete).mono
  · exact fun _ after hafter => (hforget.bind fun _ _ => .pure trivial).yields after hafter.1
  · exact fun _ _ hafter => hafter

private theorem Writes.keeps_write (h : r.Writes) {stored : Stored} (hentity : r.admits guid entity)
    (hcopies : Copies guid entity stored)
    (hsize : stored.manifest.size = UInt64.ofNat entity.size) :
    r.Keeps (fun _ => True) (do Vault.write (← get).settings.dataDir stored) := by
  refine .bind_get fun vault hvault => ?_
  have hwrite : Yields (EntityDirectory.write vault.settings.dataDir stored) vault.disk
      (fun _ disk => r.inv { vault with disk })
      fun failure disk => r.inv { vault with disk } ∧ r.tolerates failure := by
    apply ((h.write hvault hentity hcopies hsize).and
      (EntityDirectory.write_yields _ stored vault.disk)).mono
    · exact fun _ _ hdisk => hdisk.1
    · rintro _ disk ⟨hdisk, ⟨fault, rfl⟩, -⟩
      exact ⟨hdisk, r.ordinary _ fun _ => nofun⟩
  rw [Vault.write, yields_bind]
  exact (keeps_onDisk hwrite).mono (fun _ _ hafter => hafter) fun _ _ hafter => hafter

theorem Writes.keeps_record (h : r.Writes) (hentity : r.admits guid entity)
    (producer : Option Guid) : r.Keeps (fun _ => True) (record guid entity producer) := by
  have hrecord (producer : Option Guid) : r.Keeps (fun _ => True)
      (modifyCatalog (·.recordEntity ⟨guid, entity.kind, UInt64.ofNat entity.size, producer⟩)) :=
    keeps_modifyCatalog fun hvault hid => h.recordEntity hvault hid hentity producer
  exact keeps_record_of_modifyCatalog hrecord producer

theorem Writes.keeps_persistWithin (h : r.Writes) (fuel : Nat) (guid : Guid)
    (producer : Option Guid) :
    r.Keeps (fun _ => True) (persistWithin fuel guid producer) := by
  induction fuel generalizing guid producer with
  | zero => exact .throw r.loop
  | succ fuel ih =>
    refine (r.keeps_require guid).bind fun entity hentity => ?_
    refine .bind (.forM fun reference _ => .bind_get fun now hnow => ?_) fun _ _ => ?_
    · split
      · exact ((ih reference none).bind fun _ _ => .pure trivial).yields now hnow
      · exact ⟨hnow, trivial⟩
    · refine (Ordered.keeps_encode (fun g _ => r.keeps_resolving g) guid).bind fun stored hstored => ?_
      have hrest (path : String) : r.Keeps (fun _ => True) (do
          Vault.record guid entity producer
          return path) := (h.keeps_record hentity producer).bind fun _ _ => .pure trivial
      refine .bind_get fun vault hvault => ?_
      have hwrite := (h.keeps_write hentity hstored.1 hstored.2).yields vault hvault
      rw [yields_bind, yields_get] at hwrite
      rw [yields_bind]
      apply hwrite.mono
      · exact fun path after hafter => (hrest path).yields after hafter.1
      · exact fun _ _ hafter => hafter

theorem Writes.keeps_persistFrom (h : r.Writes) (guid : Guid) (producer : Option Guid) :
    r.Keeps (fun _ => True) (persistFrom guid producer) :=
  .bind_get fun vault hvault => (h.keeps_persistWithin _ guid producer).yields vault hvault

/-! ### Executing -/

/-- On admitted inputs, an instance hands over admitted outputs. -/
def Serves (r : Regime) (registry : Registry) (i : Instance) : Prop :=
  ∀ inputs : SortedMap String (Guid × Entity),
    (∀ slot guid entity, inputs.get? slot = some (guid, entity) →
      i.inputs.get? slot = some guid ∧ r.admits guid entity) →
    Computes r.tolerates
      (fun context => Computes r.tolerates
        (fun outputs => ∀ output ∈ outputs, r.admits output.1 output.2) context.outputs)
      (registry.run i.description (Context.start i inputs))

variable {registry : Registry} {i : Instance}

private theorem keeps_resolveInput (slot : String) (guid : Guid) :
    r.Keeps (r.admits guid) (Executor.resolveInput slot guid) := by
  refine (r.keeps_getOrLoad guid).tryCatch fun failure hfailure => .throw ?_
  split
  · exact r.ordinary _ fun _ => nofun
  · exact hfailure

private theorem keeps_produce (hi : r.Serves registry i) :
    r.Keeps (fun outputs => ∀ output ∈ outputs, r.admits output.1 output.2)
      (Executor.produce registry i) := by
  have hresolve : r.Keeps (i.Binds r.admits) (Executor.resolveInputs i) :=
    Executor.keeps_resolveInputs fun slot guid _ => keeps_resolveInput slot guid
  refine hresolve.bind fun inputs hinputs => ?_
  refine (hi inputs hinputs.sound).keeps.bind fun context hcontext => ?_
  refine hcontext.keeps.bind fun outputs houtputs => .pure fun output houtput => ?_
  exact houtputs output (List.mem_mergeSort.1 houtput)

theorem Writes.keeps_execute (h : r.Writes) (hi : r.Serves registry i) :
    r.Keeps (fun _ => True) (Executor.execute registry i) := by
  have hverify : r.Keeps (fun _ => True) (MonadExcept.ofExcept i.verify) := by
    refine .ofExcept (fun _ _ => trivial) fun failure hfailure => ?_
    obtain ⟨declared, derived, rfl⟩ := Instance.verify_error hfailure
    exact r.ordinary _ fun _ => nofun
  refine hverify.bind fun _ _ => .bind_get fun vault hvault => ?_
  split
  · exact ⟨hvault, trivial⟩
  refine Keeps.yields ((keeps_produce hi).bind fun outputs houtputs => ?_) vault hvault
  refine .bind (.forM fun output houtput => ?_) fun _ _ => .bind_get fun after hafter => ?_
  · exact (r.keeps_put (houtputs output houtput)).bind fun _ _ => .pure trivial
  split
  · have hpersist : r.Keeps (fun _ => True) (Executor.persistOutputs i outputs) := by
      have hrecord : r.Keeps (fun _ => True) (modifyCatalog (·.recordInstance i)) :=
        keeps_modifyCatalog fun hvault hid => h.recordInstance hvault hid i
      refine .bind (.forM fun output _ => ?_) fun _ _ => hrecord
      exact (h.keeps_persistFrom output.1 _).bind fun _ _ => .pure trivial
    exact (hpersist.bind fun _ _ => .pure trivial).yields after hafter
  · exact ⟨hafter, trivial⟩

theorem Writes.keeps_run (h : r.Writes) {dag : Dag}
    (hdag : ∀ guid i, dag.instances.get? guid = some i → r.Serves registry i) :
    r.Keeps (fun _ => True) (Executor.run registry dag) := by
  have hfrail : Executor.Frail r.tolerates :=
    ⟨fun _ _ => r.ordinary _ fun _ => nofun, fun _ => r.ordinary _ fun _ => nofun⟩
  exact Executor.keeps_run hfrail fun guid i hi => h.keeps_execute (hdag guid i hi)

/-! ### Requests -/

/-- What a regime needs to know about a request: that what it puts is admitted, that what it
imports is, and that what it executes hands over nothing else. -/
def Allows (r : Regime) (registry : Registry) : Request → Prop
  | .put guid entity => r.admits guid entity
  | .importUnordered _ => r.Exchanges
  | .exportUnordered _ => False
  | .execute i => r.Serves registry i
  | .run dag => ∀ guid i, dag.instances.get? guid = some i → r.Serves registry i
  | _ => True

theorem Writes.keeps_work (h : r.Writes) {request : Request} (hrequest : r.Allows registry request) :
    r.Keeps (fun _ => True) (request.work registry) := by
  cases request with
  | «open» settings => exact .pure trivial
  | close => exact .pure trivial
  | get guid => exact .pure trivial
  | put guid entity => exact (r.keeps_put hrequest).bind fun _ _ => .pure trivial
  | remove guid => exact (h.keeps_remove guid).bind fun _ _ => .pure trivial
  | purge guid => exact (h.keeps_purge guid).bind fun _ _ => .pure trivial
  | persist guid => exact (h.keeps_persistFrom guid none).bind fun _ _ => .pure trivial
  | load guid => exact (r.keeps_load guid).bind fun _ _ => .pure trivial
  | getOrLoad guid => exact (r.keeps_getOrLoad guid).bind fun _ _ => .pure trivial
  | exportUnordered guid => exact hrequest.elim
  | importUnordered guid =>
    exact (r.keeps_importUnordered hrequest guid).bind fun _ _ => .pure trivial
  | execute i => exact (h.keeps_execute hrequest).bind fun _ _ => .pure trivial
  | run dag => exact (h.keeps_run hrequest).bind fun _ _ => .pure trivial

end Regime

end GraphVault
