import GraphVault.Proofs.Executions
import GraphVault.Proofs.Listing
import GraphVault.Proofs.Publishing
import GraphVault.Proofs.ReferenceLoops

/-!
# Catalogs that mirror a directory

A store with a catalog lists in it just the entities of which there are complete copies. All work
of such a store keeps it so, even where it fails. What else the work may do is said by a licence:
which entities it may drop from memory, which it may purge, and which instances it may credit with
an entity.
-/

namespace GraphVault

open Disk

-- What these do is known from what they yield, so that they need not be looked into.
attribute [local irreducible] EntityDirectory.read EntityDirectory.write EntityDirectory.remove
  EntityDirectory.contains

/-! ### Tables of entities -/

namespace Catalog

variable {catalog : Catalog} {entry : Entry} {guid other producer : Guid}

/-- An entity is recorded as an output of an instance. -/
def Credits (catalog : Catalog) (guid producer : Guid) : Prop :=
  ∃ entry, catalog.entity? guid = .ok (some entry) ∧ entry.producer = some producer

theorem contains_recordEntity_iff :
    (catalog.recordEntity entry).entities.contains guid.text ↔
      guid = entry.guid ∨ catalog.entities.contains guid.text := by
  rw [recordEntity, SortedMap.contains, SortedMap.contains]
  by_cases heq : guid = entry.guid
  · simp [heq]
  · have htext : guid.text ≠ entry.guid.text := fun htext => heq (Guid.text_injective htext)
    rw [SortedMap.get?_insert_of_ne _ _ htext]
    simp [heq]

theorem contains_forgetEntity_iff :
    (catalog.forgetEntity other).entities.contains guid.text ↔
      guid ≠ other ∧ catalog.entities.contains guid.text := by
  rw [forgetEntity, SortedMap.contains, SortedMap.contains]
  by_cases heq : guid = other
  · simp [heq]
  · have htext : guid.text ≠ other.text := fun htext => heq (Guid.text_injective htext)
    rw [SortedMap.get?_erase_of_ne _ htext]
    simp [heq]

theorem Credits.congr {after : Catalog} (h : catalog.Credits guid producer)
    (hsame : after.entity? guid = catalog.entity? guid) : after.Credits guid producer := by
  obtain ⟨entry, hentry, hproducer⟩ := h
  exact ⟨entry, hsame.trans hentry, hproducer⟩

end Catalog

/-! ### Disks -/

namespace Disk

variable {site : Site} {b : Address} {disk before between after : Disk} {id : Nat} {guid : Guid}

/-- The catalog below a base, which is without records where there is none. -/
def catalogBelow (b : Address) (disk : Disk) : Catalog :=
  match disk.node? (catalogAddress b) with
  | some (.database id) => disk.catalog id
  | _ => Catalog.empty

theorem catalogBelow_of_node (h : disk.node? (catalogAddress b) = some (.database id)) :
    disk.catalogBelow b = disk.catalog id := by
  rw [catalogBelow, h]

theorem catalogBelow_of_none (h : disk.node? (catalogAddress b) = none) :
    disk.catalogBelow b = Catalog.empty := by
  rw [catalogBelow, h]

theorem catalogBelow_congr
    (hnode : after.node? (catalogAddress b) = disk.node? (catalogAddress b))
    (hcatalogs : disk.SameCatalogs after) : after.catalogBelow b = disk.catalogBelow b := by
  rw [catalogBelow, catalogBelow, hnode]
  split
  · exact hcatalogs _
  · rfl

/-- The catalog below the root of the data lists just what there are complete copies of. -/
structure Mirrors (site : Site) (disk : Disk) : Prop where
  known : disk.KnowsCatalog site.dataBase
  filed : Catalog.Filed Catalog.Entry.codec Catalog.Entry.guid
    (disk.catalogBelow site.dataBase).entities
  complete : ∀ guid : Guid, (disk.catalogBelow site.dataBase).entities.contains guid.text →
    EntityDirectory.contains disk site.dataDir guid
  entered : ∀ guid, Marked site.dataBase guid disk →
    (disk.catalogBelow site.dataBase).entities.contains guid.text

theorem Mirrors.contains_iff (h : disk.Mirrors site)
    (husable : UsableRoot site.dataDir site.dataBase disk) :
    EntityDirectory.contains disk site.dataDir guid ↔
      (disk.catalogBelow site.dataBase).entities.contains guid.text :=
  ⟨fun hguid => h.entered guid (marked_of_contains husable hguid), h.complete guid⟩

/-- What work on a store may do. -/
structure Licence where
  /-- Which entities it may drop from memory. -/
  drops : Guid → Prop
  /-- Which entities it may purge. -/
  purges : Guid → Prop
  /-- Which instances it may record as the producers of an entity. -/
  credits : Guid → Guid → Prop

/-- Nothing may be dropped, purged or credited. -/
def Licence.none : Licence := ⟨fun _ => False, fun _ => False, fun _ _ => False⟩

/-- A licence for more. -/
structure Licence.Within (licence more : Licence) : Prop where
  drops : ∀ guid, licence.drops guid → more.drops guid
  purges : ∀ guid, licence.purges guid → more.purges guid
  credits : ∀ guid producer, licence.credits guid producer → more.credits guid producer

/-- Instances have been recorded, in order, all of whose outputs have complete copies, and what was
recorded before of entities that were not purged goes on to be. -/
structure Amends (site : Site) (licence : Licence) (journal : List Instance) (before after : Disk) :
    Prop where
  copies : ∀ guid, EntityDirectory.contains before site.dataDir guid →
    EntityDirectory.contains after site.dataDir guid ∨ licence.purges guid
  instances : (after.catalogBelow site.dataBase).instances
    = Catalog.fileAll Instance.codec Instance.guid
      (before.catalogBelow site.dataBase).instances journal
  saved : ∀ i ∈ journal, ∀ output ∈ i.outputs.values,
    EntityDirectory.contains after site.dataDir output ∨ licence.purges output
  producers : ∀ guid p, (before.catalogBelow site.dataBase).Credits guid p →
    (∃ q, (after.catalogBelow site.dataBase).Credits guid q ∧ (q = p ∨ licence.credits guid q)) ∨
      licence.purges guid

namespace Amends

variable {licence more : Licence} {journal journal' : List Instance}

theorem refl (site : Site) (licence : Licence) (disk : Disk) : disk.Amends site licence [] disk :=
  ⟨fun _ => .inl, rfl, nofun, fun _ p h => .inl ⟨p, h, .inl rfl⟩⟩

theorem trans (h : before.Amends site licence journal between)
    (h' : between.Amends site licence journal' after) :
    before.Amends site licence (journal ++ journal') after := by
  constructor
  case copies =>
    intro guid hguid
    exact (h.copies guid hguid).elim (h'.copies guid) .inr
  case instances => rw [h'.instances, h.instances, Catalog.fileAll_append]
  case saved =>
    intro i hi output houtput
    cases List.mem_append.1 hi with
    | inl hi => exact (h.saved i hi output houtput).elim (h'.copies output) .inr
    | inr hi => exact h'.saved i hi output houtput
  case producers =>
    intro guid p hp
    obtain ⟨q, hq, hpq⟩ | hpurged := h.producers guid p hp
    · obtain ⟨r, hr, hqr⟩ | hpurged := h'.producers guid q hq
      · refine .inl ⟨r, hr, ?_⟩
        rcases hqr with rfl | hcredit
        · exact hpq
        · exact .inr hcredit
      · exact .inr hpurged
    · exact .inr hpurged

theorem mono (h : before.Amends site licence journal after) (hmore : licence.Within more) :
    before.Amends site more journal after := by
  refine ⟨fun guid hguid => (h.copies guid hguid).imp_right (hmore.purges guid), h.instances,
    fun i hi output houtput => (h.saved i hi output houtput).imp_right (hmore.purges output),
    fun guid p hp => (h.producers guid p hp).imp ?_ (hmore.purges guid)⟩
  rintro ⟨q, hq, hpq⟩
  exact ⟨q, hq, hpq.imp_right (hmore.credits guid q)⟩

/-- Nothing is recorded or lost as long as catalogs and copies stay. -/
theorem of_same (hbelow : after.catalogBelow site.dataBase = before.catalogBelow site.dataBase)
    (hcopies : ∀ guid, EntityDirectory.contains before site.dataDir guid →
      EntityDirectory.contains after site.dataDir guid) :
    before.Amends site licence [] after := by
  refine ⟨fun guid hguid => .inl (hcopies guid hguid), by rw [hbelow]; rfl, nofun,
    fun guid p hp => ?_⟩
  rw [hbelow]
  exact .inl ⟨p, hp, .inl rfl⟩

end Amends

/-- Work on entity directories: some copies may be new, and some may be lost. -/
structure Alters (site : Site) (new lost : Guid → Prop) (before after : Disk) : Prop where
  kept : ∀ x, EntityDirectory.contains before site.dataDir x →
    EntityDirectory.contains after site.dataDir x ∨ lost x
  only : ∀ x, Marked site.dataBase x after → Marked site.dataBase x before ∨ new x
  database : after.node? (catalogAddress site.dataBase) = before.node? (catalogAddress site.dataBase)
  catalogs : after.catalogs = before.catalogs

namespace Alters

variable {new lost : Guid → Prop}

theorem refl (site : Site) (new lost : Guid → Prop) (disk : Disk) : disk.Alters site new lost disk :=
  ⟨fun _ => .inl, fun _ => .inl, rfl, rfl⟩

theorem below (h : before.Alters site new lost after) :
    after.catalogBelow site.dataBase = before.catalogBelow site.dataBase :=
  catalogBelow_congr h.database (sameCatalogs_of_eq h.catalogs)

end Alters

/-! ### Changing the catalog -/

section Changes

variable {catalog : Catalog} {entry : Catalog.Entry} {i : Instance} {licence : Licence}

theorem catalogBelow_setCatalog (hnode : disk.node? (catalogAddress b) = some (.database id))
    (hknown : disk.KnowsCatalog b) (catalog : Catalog) :
    (disk.setCatalog id catalog).catalogBelow b = catalog := by
  have hlt := hknown id hnode
  have hafter : (disk.setCatalog id catalog).node? (catalogAddress b) = some (.database id) := hnode
  rw [catalogBelow_of_node hafter]
  simp [Disk.catalog, setCatalog, hlt]

private theorem KnowsCatalog.setCatalog (h : disk.KnowsCatalog b) (id : Nat) (catalog : Catalog) :
    (disk.setCatalog id catalog).KnowsCatalog b := by
  intro other hother
  simpa [Disk.setCatalog] using h other hother

theorem Alters.knowsCatalog {new lost : Guid → Prop} (h : before.Alters site new lost disk)
    (hknown : before.KnowsCatalog site.dataBase) : disk.KnowsCatalog site.dataBase := by
  intro id hnode
  rw [h.database] at hnode
  rw [h.catalogs]
  exact hknown id hnode

variable (husable : UsableRoot site.dataDir site.dataBase disk)
  (hnode : disk.node? (catalogAddress site.dataBase) = some (.database id))

include husable

theorem contains_setCatalog (catalog : Catalog)
    (h : EntityDirectory.contains disk site.dataDir guid) :
    EntityDirectory.contains (disk.setCatalog id catalog) site.dataDir guid := by
  have hspares : Spares site.dataBase guid disk (disk.setCatalog id catalog) := spares_of_nodes rfl
  exact hspares.contains husable h

include hnode

/-- An entity is recorded of which there is a complete copy, maybe a new one. A producer is replaced
only by one that may be credited. -/
theorem Mirrors.record (h : before.Mirrors site)
    (halters : before.Alters site (· = entry.guid) (fun _ => False) disk)
    (hcontains : EntityDirectory.contains disk site.dataDir entry.guid)
    (hproducer : ∀ p, (before.catalogBelow site.dataBase).Credits entry.guid p →
      ∃ q, entry.producer = some q ∧ (q = p ∨ licence.credits entry.guid q)) :
    (disk.setCatalog id ((disk.catalog id).recordEntity entry)).Mirrors site ∧
      before.Amends site licence []
        (disk.setCatalog id ((disk.catalog id).recordEntity entry)) := by
  have hknown := halters.knowsCatalog h.known
  have hsame : disk.catalog id = before.catalogBelow site.dataBase := by
    rw [← halters.below, catalogBelow_of_node hnode]
  have hbelow := catalogBelow_setCatalog hnode hknown ((disk.catalog id).recordEntity entry)
  have hcopy {x : Guid} (hx : EntityDirectory.contains before site.dataDir x) :
      EntityDirectory.contains disk site.dataDir x := (halters.kept x hx).resolve_right not_false
  rw [hsame] at hbelow ⊢
  refine ⟨⟨hknown.setCatalog _ _, ?_, fun x hx => ?_, fun x hmarked => ?_⟩,
    ⟨fun x hx => .inl (contains_setCatalog husable _ (hcopy hx)), ?_, nofun, fun x p hp => .inl ?_⟩⟩
  · rw [hbelow]
    exact h.filed.insert entry.restores_codec
  · rw [hbelow, Catalog.contains_recordEntity_iff] at hx
    apply contains_setCatalog husable
    rcases hx with rfl | hx
    · exact hcontains
    · exact hcopy (h.complete x hx)
  · rw [hbelow, Catalog.contains_recordEntity_iff]
    exact (halters.only x hmarked).symm.imp_right (h.entered x)
  · rw [hbelow]
    rfl
  · rw [hbelow]
    by_cases heq : x = entry.guid
    · subst heq
      obtain ⟨q, hq, hpq⟩ := hproducer p hp
      exact ⟨q, ⟨entry, Catalog.entity?_recordEntity_self _ entry, hq⟩, hpq⟩
    · exact ⟨p, hp.congr (Catalog.entity?_recordEntity_of_ne _ heq), .inl rfl⟩

/-- An entity is forgotten of which there is no complete copy any more. -/
theorem Mirrors.forget (h : before.Mirrors site)
    (halters : before.Alters site (fun _ => False) (· = guid) disk)
    (hlost : ¬ Marked site.dataBase guid disk) (hpurges : licence.purges guid) :
    (disk.setCatalog id ((disk.catalog id).forgetEntity guid)).Mirrors site ∧
      before.Amends site licence []
        (disk.setCatalog id ((disk.catalog id).forgetEntity guid)) := by
  have hknown := halters.knowsCatalog h.known
  have hsame : disk.catalog id = before.catalogBelow site.dataBase := by
    rw [← halters.below, catalogBelow_of_node hnode]
  have hbelow := catalogBelow_setCatalog hnode hknown ((disk.catalog id).forgetEntity guid)
  rw [hsame] at hbelow ⊢
  refine ⟨⟨hknown.setCatalog _ _, ?_, fun x hx => ?_, fun x hmarked => ?_⟩,
    ⟨fun x hx => (halters.kept x hx).imp (contains_setCatalog husable _) ?_, ?_, nofun,
      fun x p hp => ?_⟩⟩
  · rw [hbelow]
    exact h.filed.erase guid
  · rw [hbelow, Catalog.contains_forgetEntity_iff] at hx
    apply contains_setCatalog husable
    exact (halters.kept x (h.complete x hx.2)).resolve_right hx.1
  · rw [hbelow, Catalog.contains_forgetEntity_iff]
    refine ⟨?_, h.entered x ((halters.only x hmarked).resolve_right not_false)⟩
    rintro rfl
    exact hlost hmarked
  · rintro rfl
    exact hpurges
  · rw [hbelow]
    rfl
  · rw [hbelow]
    by_cases heq : x = guid
    · exact .inr (heq ▸ hpurges)
    · exact .inl ⟨p, hp.congr (Catalog.entity?_forgetEntity_of_ne _ heq), .inl rfl⟩

/-- An instance is recorded of all whose outputs there are complete copies. -/
theorem Mirrors.recordInstance (h : disk.Mirrors site) (i : Instance)
    (hsaved : ∀ output ∈ i.outputs.values, EntityDirectory.contains disk site.dataDir output) :
    (disk.setCatalog id ((disk.catalog id).recordInstance i)).Mirrors site ∧
      disk.Amends site licence [i]
        (disk.setCatalog id ((disk.catalog id).recordInstance i)) := by
  have hbelow := catalogBelow_setCatalog hnode h.known ((disk.catalog id).recordInstance i)
  have hsame : disk.catalog id = disk.catalogBelow site.dataBase :=
    (catalogBelow_of_node hnode).symm
  rw [hsame] at hbelow ⊢
  refine ⟨⟨h.known.setCatalog _ _, ?_, fun x hx => ?_, fun x hmarked => ?_⟩,
    ⟨fun x hx => .inl (contains_setCatalog husable _ hx), ?_, fun other hother output houtput => ?_,
      fun x p hp => .inl ⟨p, ?_, .inl rfl⟩⟩⟩
  · rw [hbelow]
    exact h.filed
  · rw [hbelow] at hx
    exact contains_setCatalog husable _ (h.complete x hx)
  · rw [hbelow]
    exact h.entered x hmarked
  · rw [hbelow]
    rfl
  · rw [List.mem_singleton.1 hother] at houtput
    exact .inl (contains_setCatalog husable _ (hsaved output houtput))
  · rw [hbelow]
    exact hp

end Changes

end Disk

/-! ### Stores -/

namespace Vault

variable {site : Site} {licence more : Licence} {journal journal' : List Instance}
  {vault before between after : Vault} {guid : Guid} {stored : Stored} {entity : Entity}
  {producer : Option Guid} {disk : Disk} {id : Nat}

/-- A store at a site whose catalog lists just what there are complete copies of. -/
structure Mirrors (site : Site) (vault : Vault) : Prop where
  dataDir : vault.settings.dataDir = site.dataDir
  unorderedDir : vault.settings.unorderedDir = site.unorderedDir
  catalog : ∃ id, vault.catalog = some id ∧
    vault.disk.node? (catalogAddress site.dataBase) = some (.database id)
  ready : site.Ready vault.catalog vault.disk
  disk : vault.disk.Mirrors site

/-- What a store does under a licence. -/
structure Amends (site : Site) (licence : Licence) (journal : List Instance)
    (before after : Vault) : Prop where
  mirrors : after.Mirrors site
  settings : after.settings = before.settings
  memory : ∀ guid, before.has guid → after.has guid ∨ licence.drops guid
  disk : before.disk.Amends site licence journal after.disk

theorem Mirrors.usable (h : vault.Mirrors site) :
    UsableRoot site.dataDir site.dataBase vault.disk := h.ready.data.mono fun _ hx => hx.1

theorem Mirrors.records_eq (h : vault.Mirrors site) :
    vault.records? = some (vault.disk.catalogBelow site.dataBase) := by
  obtain ⟨id, hid, hnode⟩ := h.catalog
  rw [records?, hid, catalogBelow_of_node hnode]
  rfl

theorem Mirrors.hasPersisted_iff (h : vault.Mirrors site) : vault.hasPersisted guid ↔
    (vault.disk.catalogBelow site.dataBase).entities.contains guid.text := by
  rw [hasPersisted, h.dataDir]
  exact h.disk.contains_iff h.usable

theorem Mirrors.amends (h : vault.Mirrors site) (licence : Licence) :
    vault.Amends site licence [] vault := ⟨h, rfl, fun _ => .inl, .refl site licence vault.disk⟩

namespace Amends

theorem trans (h : before.Amends site licence journal between)
    (h' : between.Amends site licence journal' after) :
    before.Amends site licence (journal ++ journal') after :=
  ⟨h'.mirrors, h'.settings.trans h.settings,
    fun guid hguid => (h.memory guid hguid).elim (h'.memory guid) .inr, h.disk.trans h'.disk⟩

theorem mono (h : before.Amends site licence journal after) (hmore : licence.Within more) :
    before.Amends site more journal after :=
  ⟨h.mirrors, h.settings, fun guid hguid => (h.memory guid hguid).imp_right (hmore.drops guid),
    h.disk.mono hmore⟩

/-- Where nothing is recorded in the end. -/
theorem trans_nil (h : before.Amends site licence journal between)
    (h' : between.Amends site licence [] after) : before.Amends site licence journal after := by
  have htrans := h.trans h'
  rwa [List.append_nil] at htrans

theorem hasPersisted (h : before.Amends site licence journal after) (hbefore : before.Mirrors site)
    (hguid : before.hasPersisted guid) : after.hasPersisted guid ∨ licence.purges guid := by
  rw [Vault.hasPersisted, hbefore.dataDir] at hguid
  rw [Vault.hasPersisted, h.mirrors.dataDir]
  exact h.disk.copies guid hguid

/-- What is known goes on to be, unless it may be dropped and purged. -/
theorem knows (h : before.Amends site licence journal after) (hbefore : before.Mirrors site)
    (hknows : before.Knows guid) : after.Knows guid ∨ licence.drops guid ∨ licence.purges guid := by
  cases hknows with
  | inl hhas => exact (h.memory guid hhas).imp .inl .inl
  | inr hpersisted => exact (h.hasPersisted hbefore hpersisted).imp .inr .inr

end Amends

/-- Memory is no matter. -/
theorem Mirrors.of_same (h : vault.Mirrors site) (hsettings : after.settings = vault.settings)
    (hcatalog : after.catalog = vault.catalog) (hdisk : after.disk = vault.disk) :
    after.Mirrors site := by
  constructor
  case dataDir => rw [hsettings, h.dataDir]
  case unorderedDir => rw [hsettings, h.unorderedDir]
  case catalog =>
    rw [hcatalog, hdisk]
    exact h.catalog
  case ready =>
    rw [hcatalog, hdisk]
    exact h.ready
  case disk =>
    rw [hdisk]
    exact h.disk

theorem Mirrors.loads (h : vault.Mirrors site) {new : Guid → Prop} (hloads : Loads new vault after)
    (licence : Licence) : vault.Amends site licence [] after := by
  refine ⟨h.of_same hloads.settings hloads.catalog hloads.disk, hloads.settings,
    fun guid hguid => .inl (hloads.kept guid hguid), ?_⟩
  rw [hloads.disk]
  exact .refl site licence vault.disk

theorem keeps_of_loads {α : Type} {work : VaultM α} (h : Moves (Loads Anything) work) :
    Keeps (before.Amends site licence journal) (fun _ => True) (fun _ => True) work := by
  constructor
  intro now hnow
  apply (h now).mono
  · exact fun _ _ hloads => ⟨hnow.trans_nil (hnow.mirrors.loads hloads licence), trivial⟩
  · exact fun _ _ hloads => ⟨hnow.trans_nil (hnow.mirrors.loads hloads licence), trivial⟩

/-- A store with other entities in memory, another disk and another catalog. -/
theorem amends_setCatalog (h : vault.Mirrors site) (hid : vault.catalog = some id)
    (hready : site.Ready vault.catalog disk) {catalog : Catalog}
    (hnode : disk.node? (catalogAddress site.dataBase) = some (.database id))
    (hlegible : (disk.catalog id).Legible → catalog.Legible)
    (hchange : (disk.setCatalog id catalog).Mirrors site ∧
      vault.disk.Amends site licence journal (disk.setCatalog id catalog))
    {entities : SortedMap Guid Entity}
    (hmemory : ∀ guid, vault.has guid → entities.contains guid ∨ licence.drops guid) :
    vault.Amends site licence journal
      { vault with entities, disk := disk.setCatalog id catalog } := by
  rw [hid] at hready
  refine ⟨⟨h.dataDir, h.unorderedDir, ⟨id, hid, hnode⟩, ?_, hchange.1⟩, rfl, hmemory, hchange.2⟩
  change site.Ready vault.catalog (disk.setCatalog id catalog)
  rw [hid]
  exact hready.setCatalog (hlegible (hready.legible id rfl))

/-! ### Saving -/

private theorem write_alters (h : vault.Mirrors site) (hguid : stored.manifest.guid = guid) :
    Yields (EntityDirectory.write site.dataDir stored) vault.disk
      (fun _ disk => site.Ready vault.catalog disk ∧
        vault.disk.Alters site (· = guid) (fun _ => False) disk ∧
        EntityDirectory.contains disk site.dataDir guid) fun _ _ => False := by
  cases hcontains : EntityDirectory.contains vault.disk site.dataDir guid with
  | true =>
    apply (EntityDirectory.write_of_contains (hguid ▸ hcontains)).mono ?_ fun _ _ hfalse => hfalse
    rintro - disk rfl
    exact ⟨h.ready, .refl site _ _ _, hcontains⟩
  | false =>
    apply (((write_of_not_contains h.usable hguid hcontains).and
      (h.ready.write_yields (.inl ⟨rfl, rfl⟩) stored)).and
      (write_catalogs site.dataDir stored vault.disk)).mono ?_ fun _ _ hfalse => hfalse.1.1
    rintro - disk ⟨⟨hwrote, hready, -⟩, hcatalogs⟩
    refine ⟨hready, ⟨fun x hx => .inl ?_, fun x hx => ?_, hwrote.database, hcatalogs⟩,
      hwrote.contains⟩
    · have hne : x ≠ guid := by
        rintro rfl
        rw [hcontains] at hx
        cases hx
      exact (hwrote.spares x hne).contains h.usable hx
    · by_cases heq : x = guid
      · exact .inr heq
      · exact .inl (hwrote.marks x heq hx)

private theorem record_amends (h : vault.Mirrors site) (hready : site.Ready vault.catalog disk)
    (halters : vault.disk.Alters site (· = guid) (fun _ => False) disk)
    (hcontains : EntityDirectory.contains disk site.dataDir guid)
    (hcredits : ∀ q, producer = some q → licence.credits guid q) :
    Yields (record guid entity producer) { vault with disk }
      (fun _ after => vault.Amends site licence [] after ∧ after.hasPersisted guid)
      fun _ _ => False := by
  obtain ⟨id, hid, hnode⟩ := h.catalog
  rw [← halters.database] at hnode
  have husable : UsableRoot site.dataDir site.dataBase disk := hready.data.mono fun _ hx => hx.1
  have hsame : disk.catalog id = vault.disk.catalogBelow site.dataBase := by
    rw [← halters.below, catalogBelow_of_node hnode]
  have hcatalog : { vault with disk }.catalog = some id := hid
  have hrecords : { vault with disk }.records? = some (disk.catalog id) := by
    rw [records?, hcatalog, Option.map_some]
  have hrecord (producer : Option Guid)
      (hproducer : ∀ p, (vault.disk.catalogBelow site.dataBase).Credits guid p →
        ∃ q, producer = some q ∧ (q = p ∨ licence.credits guid q)) :
      Yields (modifyCatalog
          (·.recordEntity ⟨guid, entity.kind, UInt64.ofNat entity.size, producer⟩)) { vault with disk }
        (fun _ after => vault.Amends site licence [] after ∧ after.hasPersisted guid)
        fun _ _ => False := by
    refine (yields_modifyCatalog hcatalog _).2 ⟨?_, ?_⟩
    · exact amends_setCatalog h hid hready hnode (fun hlegible => hlegible.recordEntity _)
        (h.disk.record husable hnode halters hcontains hproducer) fun _ => .inl
    · rw [hasPersisted, h.dataDir]
      exact contains_setCatalog husable _ hcontains
  simp only [record, yields_bind, yields_get, hrecords]
  cases producer with
  | some producer => exact hrecord _ fun p _ => ⟨producer, rfl, .inr (hcredits producer rfl)⟩
  | none =>
    obtain ⟨entry, hentry⟩ := hready.legible id hid guid
    simp only [yields_bind, hentry, yields_ofExcept_ok, yields_pure]
    refine hrecord _ fun p hp => ⟨p, ?_, .inl rfl⟩
    obtain ⟨found, hfound, hproducer⟩ := hp
    rw [← hsame, hentry, Except.ok.injEq] at hfound
    rw [hfound]
    exact hproducer

/-- A copy is written, or kept if it is complete, and entered in the catalog. -/
private theorem write_and_record_amends (h : vault.Mirrors site)
    (hguid : stored.manifest.guid = guid)
    (hcredits : ∀ q, producer = some q → licence.credits guid q) :
    Yields (do
        let path ← write (← get).settings.dataDir stored
        record guid entity producer
        return path) vault
      (fun _ after => vault.Amends site licence [] after ∧ after.hasPersisted guid)
      fun _ _ => False := by
  simp only [yields_bind, yields_get, h.dataDir, write, onDisk_yields_iff, yields_pure]
  apply (write_alters h hguid).mono ?_ fun _ _ hfalse => hfalse
  rintro - disk ⟨hready, halters, hcontains⟩
  exact record_amends h hready halters hcontains hcredits

/-- An entity that is persisted is entered in the catalog, and so are the vertex sets that are
persisted before it. If this fails half way through, what was persisted is entered nevertheless. -/
theorem persistWithin_amends (h : vault.Mirrors site) (fuel : Nat) (guid : Guid)
    (producer : Option Guid) (hcredits : ∀ q, producer = some q → licence.credits guid q) :
    Yields (persistWithin fuel guid producer) vault
      (fun _ after => vault.Amends site licence [] after ∧ after.hasPersisted guid)
      fun _ after => vault.Amends site licence [] after := by
  induction fuel generalizing vault guid producer with
  | zero => exact h.amends licence
  | succ fuel ih =>
    have hrequire : Keeps (vault.Amends site licence []) (fun _ => True) (fun _ => True)
        (require guid) := by
      refine .bind_get fun now hnow => ?_
      split <;> exact ⟨hnow, trivial⟩
    have hreferences (entity : Entity) : Keeps (vault.Amends site licence []) (fun _ => True)
        (fun _ => True) (entity.references.forM fun reference => do
          if !(← get).hasPersisted reference then
            let _ ← persistWithin fuel reference none) := by
      refine .forM fun reference _ => .bind_get fun now hnow => ?_
      split
      · rw [yields_bind]
        apply (ih hnow.mirrors reference none nofun).mono
        · exact fun _ _ hafter => ⟨hnow.trans_nil hafter.1, trivial⟩
        · exact fun _ _ hafter => ⟨hnow.trans_nil hafter, trivial⟩
      · exact ⟨hnow, trivial⟩
    have hresolve (r : Guid) : Keeps (vault.Amends site licence []) (fun _ => True) (fun _ => True)
        (resolve r) := by
      refine keeps_of_loads (.bind ?_ fun _ => .ofExcept _)
      exact (loads_getOrLoad r).mono fun _ _ hloads => hloads.anything
    rw [persistWithin, yields_bind]
    apply (hrequire.yields vault (h.amends licence)).mono ?_ fun _ _ hafter => hafter.1
    rintro entity required ⟨hrequired, -⟩
    rw [yields_bind]
    apply ((hreferences entity).yields required hrequired).mono ?_ fun _ _ hafter => hafter.1
    rintro - between ⟨hbetween, -⟩
    rw [yields_bind]
    apply ((Ordered.keeps_encode (fun r _ => hresolve r) guid).yields between hbetween).mono ?_
      fun _ _ hafter => hafter.1
    rintro stored now ⟨hnow, hcopies, -⟩
    apply (write_and_record_amends hnow.mirrors hcopies.filed hcredits).mono ?_
      fun _ _ hfalse => hfalse.elim
    exact fun _ after hafter => ⟨hnow.trans_nil hafter.1, hafter.2⟩

theorem persistFrom_amends (h : vault.Mirrors site) (guid : Guid) (producer : Option Guid)
    (hcredits : ∀ q, producer = some q → licence.credits guid q) :
    Yields (persistFrom guid producer) vault
      (fun _ after => vault.Amends site licence [] after ∧ after.hasPersisted guid)
      fun _ after => vault.Amends site licence [] after := by
  rw [persistFrom, yields_bind, yields_get]
  exact persistWithin_amends h _ guid producer hcredits

end Vault

end GraphVault
