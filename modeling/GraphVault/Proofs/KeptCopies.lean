import GraphVault.Proofs.GivingUp
import GraphVault.Proofs.Sites

/-!
# Copies below roots

What all complete copies below certain roots have in common they go on to have, as long as no other
copies are written. Nothing that is done with entity directories changes what catalogs hold.
-/

namespace GraphVault

namespace Disk

open EntityDirectory

/-- All complete copies below the roots suit. -/
def KeptBelow (suits : Guid → Stored → Prop) (roots : String → Prop) (disk : Disk) : Prop :=
  ∀ root b, roots root → base root = .ok b → KeptAs suits b disk

/-- Disks whose catalogs hold the same. -/
def SameCatalogs (before after : Disk) : Prop := ∀ id, after.catalog id = before.catalog id

instance : Std.Refl SameCatalogs := ⟨fun _ _ => rfl⟩

instance : Trans SameCatalogs SameCatalogs SameCatalogs :=
  ⟨fun hab hbc id => (hbc id).trans (hab id)⟩

variable {suits : Guid → Stored → Prop} {roots : String → Prop} {disk after : Disk} {root : String}
  {guid : Guid} {stored : Stored}

theorem sameCatalogs_of_eq (h : after.catalogs = disk.catalogs) : disk.SameCatalogs after := by
  intro id
  rw [Disk.catalog, Disk.catalog, h]

/-- A new catalog holds what one holds that is not there. -/
theorem sameCatalogs_create (disk : Disk) :
    disk.SameCatalogs { disk with catalogs := disk.catalogs ++ [Catalog.empty] } := by
  intro id
  simp only [Disk.catalog]
  obtain hlt | hge := Nat.lt_or_ge id disk.catalogs.length
  · rw [List.getElem?_append_left hlt]
  · rw [List.getElem?_append_right hge, List.getElem?_eq_none hge]
    cases id - disk.catalogs.length <;> rfl

theorem catalog_setCatalog_self {disk : Disk} {id : Nat} {catalog : Catalog}
    (h : id < disk.catalogs.length) : (disk.setCatalog id catalog).catalog id = catalog := by
  simp [Disk.catalog, setCatalog, h]

/-- What the catalogs hold after one of them has been changed. -/
theorem catalog_setCatalog (disk : Disk) (id : Nat) (catalog : Catalog) (other : Nat) :
    (disk.setCatalog id catalog).catalog other = disk.catalog other ∨
      other = id ∧ (disk.setCatalog id catalog).catalog other = catalog := by
  simp only [Disk.catalog, setCatalog]
  by_cases heq : id = other
  · subst heq
    obtain hlt | hge := Nat.lt_or_ge id disk.catalogs.length
    · exact .inr ⟨rfl, catalog_setCatalog_self hlt⟩
    · rw [List.getElem?_eq_none (by rwa [List.length_set]), List.getElem?_eq_none hge]
      exact .inl rfl
  · rw [List.getElem?_set_ne heq]
    exact .inl rfl

/-! ### Work on entity directories -/

theorem KeptBelow.mono {suits' : Guid → Stored → Prop} (h : disk.KeptBelow suits roots)
    (hsuits : ∀ g stored, suits g stored → suits' g stored) : disk.KeptBelow suits' roots := by
  intro root b hroot hb g hmarker
  obtain ⟨stored, hstored, hholds⟩ := h root b hroot hb g hmarker
  exact ⟨stored, hsuits g stored hstored, hholds⟩

theorem KeptBelow.exists_copy (h : disk.KeptBelow suits roots) (hroot : roots root)
    (hcontains : EntityDirectory.contains disk root guid) :
    ∃ stored, suits guid stored ∧ ∀ b, base root = .ok b → disk.Holds b guid stored := by
  obtain ⟨-, b, hb, -, hmarker⟩ := contains_iff.1 hcontains
  obtain ⟨stored, hsuits, hholds⟩ := h root b hroot hb.base_eq guid hmarker
  refine ⟨stored, hsuits, fun b' hb' => ?_⟩
  rw [hb.base_eq, Except.ok.injEq] at hb'
  exact hb' ▸ hholds

/-- A suitable copy is written, below whatever root. -/
theorem KeptBelow.write_yields (h : disk.KeptBelow suits roots) (root : String)
    (hfiled : stored.manifest.guid = guid) (hsuits : suits guid stored) :
    Yields (EntityDirectory.write root stored) disk (fun _ after => after.KeptBelow suits roots)
      fun _ after => after.KeptBelow suits roots := by
  apply (EntityDirectory.write_yields root stored disk).mono
  · rintro _ after (rfl | ⟨grown, b, hgrows, -, rfl⟩)
    · exact h
    · rw [hfiled]
      exact fun root b hroot hb => ((h root b hroot hb).grows hgrows).publish hsuits
  · rintro _ after ⟨-, hgrows⟩
    exact fun root b hroot hb => (h root b hroot hb).grows hgrows

theorem KeptBelow.remove_yields (h : disk.KeptBelow suits roots) (root : String) (guid : Guid) :
    Yields (EntityDirectory.remove root guid) disk (fun _ after => after.KeptBelow suits roots)
      fun _ after => after.KeptBelow suits roots := by
  have hremoved {after : Disk} (hafter : after = disk ∨
      ∃ b, base root = .ok b ∧ Removed b guid disk after) : after.KeptBelow suits roots := by
    rcases hafter with rfl | ⟨b', -, hremoved⟩
    · exact h
    · exact fun root b hroot hb => (h root b hroot hb).removed hremoved
  apply (EntityDirectory.remove_yields root guid disk).mono
  · exact fun _ _ hafter => hremoved hafter
  · exact fun _ _ hafter => hremoved hafter.2

/-- Work on entity directories does not touch catalogs. -/
theorem write_catalogs (root : String) (stored : Stored) :
    Moves (fun disk after => after.catalogs = disk.catalogs) (EntityDirectory.write root stored) := by
  intro disk
  apply (EntityDirectory.write_yields root stored disk).mono
  · rintro _ after (rfl | ⟨grown, b, hgrows, -, rfl⟩)
    · rfl
    · exact hgrows.catalogs
  · exact fun _ _ hafter => hafter.2.catalogs

theorem remove_catalogs (root : String) (guid : Guid) :
    Moves (fun disk after => after.catalogs = disk.catalogs) (EntityDirectory.remove root guid) := by
  have hremoved {disk after : Disk} (hafter : after = disk ∨
      ∃ b, base root = .ok b ∧ Removed b guid disk after) : after.catalogs = disk.catalogs := by
    rcases hafter with rfl | ⟨b, -, hremoved⟩
    · rfl
    · exact hremoved.catalogs
  intro disk
  apply (EntityDirectory.remove_yields root guid disk).mono
  · exact fun _ _ hafter => hremoved hafter
  · exact fun _ _ hafter => hremoved hafter.2

/-! ### Opening and closing -/

theorem moves_openCatalog (path : String) : Moves SameCatalogs (openCatalog path) := by
  intro disk
  have hcreate (address : Address) (node : Node) (id : Nat) : disk.SameCatalogs
      (({ disk with catalogs := disk.catalogs ++ [Catalog.empty] }.put address node).hold id) :=
    sameCatalogs_create disk
  simp only [openCatalog, yields_bind, yields_get]
  refine yields_ofExcept (fun address _ => ?_) fun _ _ => fun _ => rfl
  split
  · exact hcreate _ _ _
  · exact fun _ => rfl
  · split
    · exact hcreate _ _ _
    · exact fun _ => rfl
  · split
    · exact fun _ => rfl
    · exact sameCatalogs_of_eq rfl

theorem moves_open (settings : Settings) : Moves SameCatalogs (Vault.open settings) := by
  intro disk
  unfold Vault.open
  split
  · simp only [yields_bind, yields_adaptExcept, yields_get, yields_pure]
    refine (moves_createAll _ disk).mono (fun _ grown hgrows => ?_)
      fun _ _ hgrows => sameCatalogs_of_eq hgrows.catalogs
    have hgrown : disk.SameCatalogs grown := sameCatalogs_of_eq hgrows.catalogs
    exact (moves_openCatalog _ grown).mono (fun _ _ hafter => Trans.trans hgrown hafter)
      fun _ _ hafter => Trans.trans hgrown hafter
  · exact fun _ => rfl

/-- A store is opened with nothing in memory. -/
theorem KeptBelow.open_yields (h : disk.KeptBelow suits roots) (settings : Settings) :
    Yields (Vault.open settings) disk
      (fun vault after => vault = ⟨settings, SortedMap.empty, vault.catalog, after⟩ ∧
        after.KeptBelow suits roots ∧ disk.SameCatalogs after)
      fun failure after => after.KeptBelow suits roots ∧ disk.SameCatalogs after ∧
        failure.Ordinary := by
  apply ((Vault.open_yields settings disk).and (moves_open settings disk)).mono
  · rintro vault after ⟨⟨hvault, hprepared⟩, hcatalogs⟩
    exact ⟨hvault, fun root b hroot hb => (h root b hroot hb).prepared hprepared, hcatalogs⟩
  · rintro failure after ⟨⟨hfailure, hprepared⟩, hcatalogs⟩
    refine ⟨fun root b hroot hb => (h root b hroot hb).prepared hprepared, hcatalogs, ?_⟩
    rcases hfailure with ⟨fault, rfl⟩ | ⟨fault, rfl⟩
    · exact fun _ => nofun
    · exact fun _ => nofun

theorem KeptBelow.of_nodes (h : disk.KeptBelow suits roots) (hnodes : after.nodes = disk.nodes) :
    after.KeptBelow suits roots := by
  intro root b hroot hb
  have hagrees : AgreesBut (catalogAddress b) disk after := by
    intro a _
    rw [node?, node?, hnodes]
  exact (h root b hroot hb).of_agreesBut hagrees

end Disk

namespace Vault

theorem sameCatalogs_close (vault : Vault) : vault.disk.SameCatalogs vault.close := by
  unfold close
  split <;> exact fun _ => rfl

/-- Recording an entity comes down to putting a record of it in the catalog. -/
theorem keeps_record_of_modifyCatalog {inv : Vault → Prop} {tolerated : Failure → Prop}
    [Failure.Lenient tolerated] {guid : Guid} {entity : Entity}
    (h : ∀ producer, Keeps inv tolerated (fun _ => True) (modifyCatalog
      (·.recordEntity ⟨guid, entity.kind, UInt64.ofNat entity.size, producer⟩)))
    (producer : Option Guid) :
    Keeps inv tolerated (fun _ => True) (record guid entity producer) := by
  refine .bind_get fun vault hvault => Keeps.yields ?_ vault hvault
  split
  · exact .pure trivial
  · rename_i catalog _
    split
    · exact h _
    · exact (catalog.orderly_entity? guid).keeps_ordinary.bind fun _ _ => h _

end Vault

end GraphVault
