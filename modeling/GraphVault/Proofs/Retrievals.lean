import GraphVault.Proofs.Fetching
import GraphVault.Proofs.ReferenceLoops

/-!
# What retrievals touch

Before an entity is put, loaded or imported, what it refers to is loaded, and it is imported where
there are exchange copies only. That stays in memory also if the entity is refused in the end.
Nothing else is touched: whatever is on disk, a retrieval registers nothing but the entity that is
asked for and what references lead to, and only for this entity what was registered before is ever
replaced (`Retrieval.yields_extends`).
-/

namespace GraphVault

open Disk EntityDirectory

/-- The references in what is read are those that its manifest lists. -/
theorem Disk.lists_of_read {disk : Disk} {root : String} {guid r : Guid} {stored : Stored}
    (h : EntityDirectory.read disk root guid = .ok stored)
    (hr : r ∈ stored.manifest.references.map (·.guid)) : disk.Lists root guid r := by
  obtain ⟨hcontains, bytes, hbytes, hdecode, -⟩ := read_eq_ok_iff.1 h
  obtain ⟨size, -, hlimited⟩ := bind_eq_ok_iff.1 hbytes
  have hread : disk.read (Path.join (path root guid) manifestFile) = .ok bytes := by
    split at hlimited
    · cases hlimited
    · exact mapError_eq_ok_iff.1 hlimited
  obtain ⟨payload, hstrip, hmanifest⟩ := bind_eq_ok_iff.1 hdecode
  cases hresult : Manifest.codec.read payload with
  | error fault =>
    rw [hresult] at hmanifest
    cases hmanifest
  | ok manifest =>
    simp only [hresult] at hmanifest
    split at hmanifest
    · cases hmanifest
    · split at hmanifest
      · cases hmanifest
      · cases hmanifest
        exact ⟨hcontains, bytes, payload, _, hread, hstrip, hresult, hr⟩

-- What these do is known from what they yield, so that they need not be looked into.
attribute [local irreducible] EntityDirectory.read EntityDirectory.contains

namespace Vault

variable {before between after start now vault : Vault} {replaced new new' : Guid → Prop}
  {guid r x : Guid} {entity : Entity}

/-- References lead from one guid to another through the complete copies of a store. -/
def Links (vault : Vault) : Guid → Guid → Prop :=
  Relation.ReflTransGen (vault.disk.Lists vault.settings.dataDir)

/-- References lead from one guid to another through the exchange copies of a store, and then
through its complete copies. -/
def LinksStaged (vault : Vault) (guid r : Guid) : Prop :=
  ∃ x, Relation.ReflTransGen (vault.disk.Lists vault.settings.unorderedDir) guid x ∧
    vault.Links x r

theorem LinksStaged.head (hlists : vault.disk.Lists vault.settings.unorderedDir guid r)
    (h : vault.LinksStaged r x) : vault.LinksStaged guid x := by
  obtain ⟨y, hstaged, hlinks⟩ := h
  exact ⟨y, .head hlists hstaged, hlinks⟩

/-- A store has more in memory. What was in memory before is there as it was, if it is not replaced,
and nothing else has changed. -/
structure Extends (replaced new : Guid → Prop) (before after : Vault) : Prop where
  settings : after.settings = before.settings
  catalog : after.catalog = before.catalog
  disk : after.disk = before.disk
  kept : ∀ guid entity, before.get? guid = some entity →
    after.get? guid = some entity ∨ replaced guid
  only : ∀ guid, after.has guid → before.has guid ∨ new guid

namespace Extends

theorem refl (replaced new : Guid → Prop) (vault : Vault) : vault.Extends replaced new vault :=
  ⟨rfl, rfl, rfl, fun _ _ h => .inl h, fun _ h => .inl h⟩

theorem mono (h : before.Extends replaced new after) (hnew : ∀ guid, new guid → new' guid) :
    before.Extends replaced new' after :=
  ⟨h.settings, h.catalog, h.disk, h.kept, fun guid hguid =>
    (h.only guid hguid).imp_right (hnew guid)⟩

theorem trans (h : before.Extends Nothing new between) (h' : between.Extends replaced new after) :
    before.Extends replaced new after where
  settings := h'.settings.trans h.settings
  catalog := h'.catalog.trans h.catalog
  disk := h'.disk.trans h.disk
  kept guid entity hentity := h'.kept guid entity ((h.kept guid entity hentity).resolve_right id)
  only guid hguid := (h'.only guid hguid).elim (h.only guid) .inr

/-- Where nothing is registered, nothing is replaced. -/
theorem of_absent (h : before.Extends (· = guid) new after) (hnone : before.get? guid = none) :
    before.Extends Nothing new after := by
  refine ⟨h.settings, h.catalog, h.disk, fun x entity hentity => ?_, h.only⟩
  refine (h.kept x entity hentity).imp_right ?_
  rintro rfl
  rw [hnone] at hentity
  cases hentity

theorem links (h : before.Extends replaced new after) : after.Links = before.Links := by
  rw [Links, Links, h.disk, h.settings]

theorem linksStaged (h : before.Extends replaced new after) :
    after.LinksStaged = before.LinksStaged := by
  funext guid r
  rw [LinksStaged, LinksStaged, h.links, h.disk, h.settings]

theorem insert (vault : Vault) (guid : Guid) (entity : Entity) :
    vault.Extends (· = guid) (· = guid) (vault.insert guid entity) := by
  refine ⟨rfl, rfl, rfl, fun x found hfound => ?_, fun x hx => ?_⟩
  · by_cases heq : x = guid
    · exact .inr heq
    · exact .inl ((get?_insert_of_ne vault entity heq).trans hfound)
  · by_cases heq : x = guid
    · exact .inr heq
    · rw [has_iff, get?_insert_of_ne vault entity heq] at hx
      exact .inl (has_iff.2 hx)

end Extends

/-- From a store on, work registers a guid and what is new, and only what is new if it fails. -/
def Registers (work : VaultM Entity) (guid : Guid) (new : Guid → Prop) (vault : Vault) : Prop :=
  Yields work vault (fun _ after => vault.Extends (· = guid) (fun x => x = guid ∨ new x) after)
    fun _ after => vault.Extends Nothing new after

/-- Work that goes on from a store and registers nothing but what is new. -/
abbrev Gains {α : Type} (start : Vault) (new : Guid → Prop) (work : VaultM α) : Prop :=
  Keeps (start.Extends Nothing new) (fun _ => True) (fun _ => True) work

private theorem register_registers (guid : Guid) (entity : Entity) (vault : Vault) :
    Registers (register guid entity) guid Nothing vault := by
  have hinsert : vault.Extends (· = guid) (fun x => x = guid ∨ Nothing x)
      (vault.insert guid entity) := (Extends.insert vault guid entity).mono fun _ => .inl
  simp only [Registers, register, yields_bind, yields_get]
  split
  · split
    · exact .refl _ _ vault
    · split
      · exact .refl _ _ vault
      · exact hinsert
  · exact hinsert

/-- What is put is registered last. -/
private theorem putWith_registers {find : Guid → VaultM Entity}
    (hfind : ∀ r ∈ entity.references, start.Gains new (find r)) (guid : Guid)
    (h : start.Extends Nothing new now) :
    Yields (putWith find guid entity) now
      (fun _ after => start.Extends (· = guid) (fun x => x = guid ∨ new x) after)
      fun _ after => start.Extends Nothing new after := by
  have hresolve (r : Guid) (hr : r ∈ entity.references) : start.Gains new (resolveWith find r) :=
    (hfind r hr).bind fun _ _ => .ofExcept (fun _ _ => trivial) fun _ _ => trivial
  rw [putWith, yields_bind]
  apply ((Entity.keeps_validate hresolve guid).yields now h).mono
  · rintro _ valid ⟨hvalid, -⟩
    apply (register_registers guid entity valid).mono
    · intro _ after hafter
      exact (hvalid.mono fun _ => .inr).trans (hafter.mono fun _ => Or.imp_right False.elim)
    · intro _ after hafter
      exact hvalid.trans (hafter.mono fun _ => False.elim)
  · exact fun _ _ hafter => hafter.1

/-- What is not in memory is loaded from where references lead to. -/
private theorem gains_findWith {load : Guid → VaultM Entity}
    (hload : ∀ vault : Vault, Registers (load r) r (Relation.TransGen
      (vault.disk.Lists vault.settings.dataDir) r) vault)
    (hnew : ∀ x, start.Links r x → new x) : start.Gains new (findWith load r) := by
  refine .bind_get fun vault hvault => ?_
  have hreached : ∀ x, x = r ∨ Relation.TransGen (vault.disk.Lists vault.settings.dataDir) r x →
      new x := by
    intro x hx
    apply hnew
    rw [← hvault.links]
    rcases hx with rfl | hx
    · exact .refl
    · exact hx.to_reflTransGen
  cases hget : vault.get? r with
  | some entity => exact ⟨hvault, trivial⟩
  | none =>
    dsimp only
    split
    · apply (hload vault).mono
      · exact fun _ after hafter => ⟨hvault.trans ((hafter.of_absent hget).mono hreached), trivial⟩
      · exact fun _ after hafter =>
          ⟨hvault.trans (hafter.mono fun x hx => hreached x (.inr hx)), trivial⟩
    · exact ⟨hvault, trivial⟩

private theorem gains_vertexSet (guid : Guid) : start.Gains new (vertexSet guid) := by
  refine Keeps.bind (.bind_get fun vault hvault => ?_) fun _ (_ : True) =>
    .ofExcept (fun _ _ => trivial) fun _ _ => trivial
  split
  · exact ⟨hvault, trivial⟩
  · exact ⟨hvault, trivial⟩

private theorem loadWithin_registers (fuel : Nat) (guid : Guid) (vault : Vault) :
    Registers (loadWithin fuel guid) guid
      (Relation.TransGen (vault.disk.Lists vault.settings.dataDir) guid) vault := by
  induction fuel generalizing guid vault with
  | zero => exact .refl _ _ vault
  | succ fuel ih =>
    rw [Registers, loadWithin, yields_bind, yields_get, yields_bind]
    refine yields_ofExcept (fun stored hread => ?_) fun _ _ => .refl _ _ vault
    have hfind : ∀ r ∈ stored.manifest.references.map (·.guid), vault.Gains
        (Relation.TransGen (vault.disk.Lists vault.settings.dataDir) guid)
        (findWith (loadWithin fuel) r) := fun r hr =>
      gains_findWith (ih r) fun x hx => .head' (lists_of_read hread hr) hx
    have hgathers : vault.Gains (Relation.TransGen (vault.disk.Lists vault.settings.dataDir) guid)
        (stored.manifest.references.forM fun reference => do
          let _ ← findWith (loadWithin fuel) reference.guid) :=
      .forM fun reference hreference =>
        (hfind _ (List.mem_map_of_mem hreference)).bind fun _ _ => .pure trivial
    rw [yields_bind]
    apply (hgathers.yields vault (.refl _ _ vault)).mono ?_ fun _ _ hafter => hafter.1
    rintro - gathered ⟨hgathered, -⟩
    rw [yields_bind]
    apply ((Ordered.keeps_decode fun r _ => gains_vertexSet r).yields gathered hgathered).mono ?_
      fun _ _ hafter => hafter.1
    rintro entity decoded ⟨hdecoded, hentity⟩
    exact putWith_registers (fun r hr => hfind r (hentity.references r hr)) guid hdecoded

private theorem load_registers (guid : Guid) (vault : Vault) :
    Registers (load guid) guid (Relation.TransGen (vault.disk.Lists vault.settings.dataDir) guid)
      vault := by
  rw [Registers, load, yields_bind, yields_get]
  exact loadWithin_registers vault.depth guid vault

/-- Whatever is found is what references lead to, and nothing is replaced. -/
theorem gains_getOrLoad (hnew : ∀ x, start.Links guid x → new x) :
    start.Gains new (getOrLoad guid) := gains_findWith (load_registers guid) hnew

theorem gains_resolve (hnew : ∀ x, start.Links guid x → new x) : start.Gains new (resolve guid) :=
  (gains_getOrLoad hnew).bind fun _ _ => .ofExcept (fun _ _ => trivial) fun _ _ => trivial

/-- The references of what is put lead to whatever else is registered. -/
theorem put_registers (guid : Guid) (entity : Entity) (h : start.Extends Nothing new now)
    (hnew : ∀ r ∈ entity.references, ∀ x, start.Links r x → new x) :
    Yields (put guid entity) now
      (fun _ after => start.Extends (· = guid) (fun x => x = guid ∨ new x) after)
      fun _ after => start.Extends Nothing new after :=
  putWith_registers (fun r hr => gains_getOrLoad (hnew r hr)) guid h

private theorem importWithin_registers (fuel : Nat) (guid : Guid) (vault : Vault) :
    Registers (importWithin fuel guid) guid
      (fun x => ∃ r, vault.disk.Lists vault.settings.unorderedDir guid r ∧ vault.LinksStaged r x)
      vault := by
  induction fuel generalizing guid vault with
  | zero => exact .refl _ _ vault
  | succ fuel ih =>
    rw [Registers, importWithin, yields_bind, yields_get, yields_bind]
    refine yields_ofExcept (fun stored hread => ?_) fun _ _ => .refl _ _ vault
    have hlinks : ∀ r ∈ stored.manifest.references.map (·.guid), ∀ x, vault.Links r x →
        ∃ r, vault.disk.Lists vault.settings.unorderedDir guid r ∧ vault.LinksStaged r x :=
      fun r hr x hx => ⟨r, lists_of_read hread hr, r, .refl, hx⟩
    have hgathers : vault.Gains (fun x => ∃ r, vault.disk.Lists vault.settings.unorderedDir guid r ∧
          vault.LinksStaged r x)
        (stored.manifest.references.forM fun reference => do
          let now ← get
          let known := now.has reference.guid || now.hasPersisted reference.guid
          if !known && EntityDirectory.contains now.disk vault.settings.unorderedDir reference.guid then
            let _ ← importWithin fuel reference.guid) := by
      refine .forM fun reference hreference => .bind_get fun now hnow => ?_
      have hlists := lists_of_read hread (List.mem_map_of_mem hreference)
      dsimp only
      split
      · rename_i hlacks
        have hnone : now.get? reference.guid = none := by
          rw [Option.eq_none_iff_forall_ne_some]
          intro entity hentity
          simp [has_iff.2 ⟨entity, hentity⟩] at hlacks
        have hreached : ∀ x, (x = reference.guid ∨ ∃ r,
            now.disk.Lists now.settings.unorderedDir reference.guid r ∧ now.LinksStaged r x) →
            ∃ r, vault.disk.Lists vault.settings.unorderedDir guid r ∧ vault.LinksStaged r x := by
          intro x hx
          refine ⟨reference.guid, hlists, ?_⟩
          rw [← hnow.linksStaged]
          rcases hx with rfl | ⟨r, hr, hx⟩
          · exact ⟨_, .refl, .refl⟩
          · exact hx.head hr
        rw [yields_bind]
        apply (ih reference.guid now).mono
        · exact fun _ after hafter =>
            ⟨hnow.trans ((hafter.of_absent hnone).mono hreached), trivial⟩
        · exact fun _ after hafter =>
            ⟨hnow.trans (hafter.mono fun x hx => hreached x (.inr hx)), trivial⟩
      · exact ⟨hnow, trivial⟩
    rw [yields_bind]
    apply (hgathers.yields vault (.refl _ _ vault)).mono ?_ fun _ _ hafter => hafter.1
    rintro - gathered ⟨hgathered, -⟩
    rw [yields_bind]
    apply ((Unordered.keeps_decode fun r hr => gains_resolve (hlinks r hr)).yields gathered
      hgathered).mono ?_ fun _ _ hafter => hafter.1
    rintro entity decoded ⟨hdecoded, hentity⟩
    exact put_registers guid entity hdecoded fun r hr => hlinks r (hentity.references r hr)

private theorem importUnordered_registers (guid : Guid) (vault : Vault) :
    Registers (importUnordered guid) guid
      (fun x => ∃ r, vault.disk.Lists vault.settings.unorderedDir guid r ∧ vault.LinksStaged r x)
      vault := by
  rw [Registers, importUnordered, yields_bind, yields_get]
  exact importWithin_registers vault.depth guid vault

end Vault

/-- A way in which an entity is asked for, or is brought in. -/
inductive Retrieval where
  | put (entity : Entity)
  | load
  | getOrLoad
  | importUnordered

namespace Retrieval

open Vault

/-- Retrieves what belongs under a guid. -/
def work (guid : Guid) : Retrieval → VaultM Entity
  | put entity => Vault.put guid entity
  | load => Vault.load guid
  | getOrLoad => Vault.getOrLoad guid
  | importUnordered => Vault.importUnordered guid

/-- The references of what is retrieved lead to a guid: those of the entity that is put, or those
in the manifest of the copy that is read. -/
def Reaches (vault : Vault) (guid x : Guid) : Retrieval → Prop
  | put entity => ∃ r ∈ entity.references, vault.Links r x
  | load | getOrLoad => Relation.TransGen (vault.disk.Lists vault.settings.dataDir) guid x
  | importUnordered =>
    ∃ r, vault.disk.Lists vault.settings.unorderedDir guid r ∧ vault.LinksStaged r x

/-- Whatever is on disk and whatever a store does about collisions, to put, load or import an entity
registers nothing but this one and what its references lead to, replaces nothing that is registered
under another guid, and leaves the disk and the catalog as they are. If it fails, it replaces nothing
at all, and the guid itself is not registered unless its references lead back to it. -/
theorem yields_extends (retrieval : Retrieval) (guid : Guid) (vault : Vault) :
    Yields (retrieval.work guid) vault
      (fun _ after =>
        vault.Extends (· = guid) (fun x => x = guid ∨ retrieval.Reaches vault guid x) after)
      fun _ after => vault.Extends Nothing (retrieval.Reaches vault guid) after := by
  cases retrieval with
  | put entity =>
    exact put_registers guid entity (.refl _ _ vault) fun r hr x hx => ⟨r, hr, hx⟩
  | load => exact load_registers guid vault
  | getOrLoad =>
    simp only [work, Vault.getOrLoad, findWith, yields_bind, yields_get]
    split
    · exact .refl _ _ vault
    · split
      · exact load_registers guid vault
      · exact .refl _ _ vault
  | importUnordered => exact importUnordered_registers guid vault

end Retrieval

end GraphVault
