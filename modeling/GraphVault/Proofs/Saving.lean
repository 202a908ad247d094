import GraphVault.Proofs.CoherentHistories
import GraphVault.Proofs.KeptCopies
import GraphVault.Proofs.Persisting

/-!
# Saving what is in memory

A store whose root can be used and whose catalog can be read persists what it has in memory with its
vertex sets, whatever copies there are already (`Vault.persistFrom_saves`).
-/

namespace GraphVault

open Disk EntityDirectory

/-- What is written depends on nothing of the vertex sets but their sizes. -/
theorem Ordered.encode_of_sizes {guid : Guid} {entity : Entity} {stored : Stored}
    {resolve resolve' : Guid → Except Failure VertexSet}
    (h : encode guid entity resolve = .ok stored)
    (hsizes : ∀ r ∈ entity.references, ∀ set, resolve r = .ok set →
      ∃ set', resolve' r = .ok set' ∧ set'.size = set.size) :
    encode guid entity resolve' = .ok stored := by
  cases entity with
  | vertexSet set => exact h
  | edgeBundle bundle =>
    have hreference {r : Guid} (hr : r ∈ (Entity.edgeBundle bundle).references)
        {reference : Reference} (href : Ordered.reference r resolve = .ok reference) :
        Ordered.reference r resolve' = .ok reference := by
      obtain ⟨set, hset, hreference⟩ := bind_eq_ok_iff.1 href
      obtain ⟨set', hset', hsize⟩ := hsizes r hr set hset
      rw [← hsize] at hreference
      exact bind_eq_ok_iff.2 ⟨set', hset', hreference⟩
    obtain ⟨source, hsource, hrest⟩ := bind_eq_ok_iff.1 h
    obtain ⟨destination, hdestination, hstored⟩ := bind_eq_ok_iff.1 hrest
    have hsource' := hreference (Entity.mem_references_edgeBundle.2 (.inl rfl)) hsource
    have hdestination' := hreference (Entity.mem_references_edgeBundle.2 (.inr rfl)) hdestination
    exact bind_eq_ok_iff.2 ⟨source, hsource', bind_eq_ok_iff.2 ⟨destination, hdestination', hstored⟩⟩
  | column type cells => exact h

/-- What is resolved is written. -/
theorem Ordered.exists_encode_of_resolved {entity : Entity}
    {resolve : Guid → Except Failure VertexSet}
    (h : ∀ r ∈ entity.references, ∃ set, resolve r = .ok set) (guid : Guid) :
    ∃ stored, encode guid entity resolve = .ok stored ∧ stored.manifest.guid = guid := by
  cases entity with
  | vertexSet set => exact ⟨_, rfl, rfl⟩
  | edgeBundle bundle =>
    obtain ⟨source, hsource⟩ := h _ (Entity.mem_references_edgeBundle.2 (.inl rfl))
    obtain ⟨destination, hdestination⟩ := h _ (Entity.mem_references_edgeBundle.2 (.inr rfl))
    have hencode : encode guid (.edgeBundle bundle) resolve = .ok
        ⟨⟨guid, .edgeBundle, UInt64.ofNat bundle.size,
          [⟨bundle.sourceSet, UInt64.ofNat source.size⟩,
            ⟨bundle.destinationSet, UInt64.ofNat destination.size⟩]⟩,
          RowFile.encode RowFile.edgeRow (bundle.edges.map edgeRow)⟩ := by
      simp only [encode, reference, hsource, hdestination]
      rfl
    exact ⟨_, hencode, rfl⟩
  | column type cells => exact ⟨_, rfl, rfl⟩

namespace Vault

-- What these do is known from what they yield, so that they need not be looked into.
attribute [local irreducible] EntityDirectory.read EntityDirectory.write EntityDirectory.contains

variable {vault between after : Vault} {root : String} {b : Address} {guid r : Guid}
  {entity : Entity} {stored : Stored}

/-- A store that can write below its root, and read and change its catalog. -/
structure Sturdy (root : String) (b : Address) (vault : Vault) : Prop where
  dataDir : vault.settings.dataDir = root
  usable : UsableRoot root b vault.disk
  legible : ∀ id, vault.catalog = some id → (vault.disk.catalog id).Legible
  known : ∀ id, vault.catalog = some id → id < vault.disk.catalogs.length

/-- On a disk there is the complete copy of what a store has in memory under a guid. -/
def Copied (root : String) (b : Address) (vault : Vault) (disk : Disk) (x : Guid) : Prop :=
  EntityDirectory.contains disk root x ∧ ∃ entity stored, vault.get? x = some entity ∧
    Ordered.encode x entity vault.registered = .ok stored ∧ disk.Holds b x stored

/-- What saving leaves: the entities in memory, the copies that are complete, and the instances on
record. Nothing is written but what is in memory. -/
structure Enriches (root : String) (b : Address) (vault after : Vault) : Prop where
  sturdy : after.Sturdy root b
  entities : after.entities = vault.entities
  settings : after.settings = vault.settings
  catalog : after.catalog = vault.catalog
  spares : ∀ x, EntityDirectory.contains vault.disk root x → Spares b x vault.disk after.disk
  copies : ∀ x, Marked b x after.disk →
    Marked b x vault.disk ∧ Spares b x vault.disk after.disk ∨
      vault.Copied root b after.disk x
  instances : ∀ id, (after.disk.catalog id).instances = (vault.disk.catalog id).instances
  database : after.disk.node? (catalogAddress b) = vault.disk.node? (catalogAddress b)

theorem Sturdy.enriches (h : vault.Sturdy root b) : vault.Enriches root b vault :=
  ⟨h, rfl, rfl, rfl, fun _ _ => spares_of_nodes rfl,
    fun _ hx => .inl ⟨hx, spares_of_nodes rfl⟩, fun _ => rfl, rfl⟩

theorem Copied.spared {disk last : Disk} (h : vault.Copied root b disk guid)
    (husable : UsableRoot root b disk) (hspares : Spares b guid disk last) :
    vault.Copied root b last guid := by
  obtain ⟨hcontains, entity, stored, hget, hencode, hholds⟩ := h
  exact ⟨hspares.contains husable hcontains, entity, stored, hget, hencode, hspares.holds hholds⟩

theorem Copied.of_entities {disk : Disk} (h : after.Copied root b disk guid)
    (hentities : after.entities = vault.entities) : vault.Copied root b disk guid := by
  have hget (x : Guid) : after.get? x = vault.get? x := congrArg (SortedMap.get? · x) hentities
  have hregistered : after.registered = vault.registered := by
    funext x
    rw [registered, registered, hget]
  obtain ⟨hcontains, entity, stored, hentity, hencode, hholds⟩ := h
  exact ⟨hcontains, entity, stored, (hget guid).symm.trans hentity, hregistered ▸ hencode, hholds⟩

theorem Enriches.marks (h : vault.Enriches root b after) (x : Guid) (hx : Marked b x after.disk) :
    Marked b x vault.disk ∨ vault.has x := by
  refine (h.copies x hx).imp And.left ?_
  rintro ⟨-, entity, -, hentity, -⟩
  exact has_iff.2 ⟨entity, hentity⟩

theorem Enriches.contains (h : vault.Enriches root b after) (hvault : vault.Sturdy root b)
    {x : Guid} (hcontains : EntityDirectory.contains vault.disk root x) :
    EntityDirectory.contains after.disk root x :=
  (h.spares x hcontains).contains hvault.usable hcontains

theorem Enriches.trans (h : vault.Enriches root b between) (hvault : vault.Sturdy root b)
    (h' : between.Enriches root b after) : vault.Enriches root b after := by
  refine ⟨h'.sturdy, h'.entities.trans h.entities, h'.settings.trans h.settings,
    h'.catalog.trans h.catalog, fun x hx => ?_, fun x hx => ?_,
    fun id => (h'.instances id).trans (h.instances id), h'.database.trans h.database⟩
  · exact (h.spares x hx).trans (h'.spares x (h.contains hvault hx))
  · rcases h'.copies x hx with ⟨hx, hspares⟩ | hcopied
    · exact (h.copies x hx).imp (fun hbefore => ⟨hbefore.1, hbefore.2.trans hspares⟩)
        fun hcopied => hcopied.spared h.sturdy.usable hspares
    · exact .inr (hcopied.of_entities h.entities)

/-- What is in memory is no matter for what can be saved. -/
theorem Sturdy.of_entities (h : vault.Sturdy root b) (entities : SortedMap Guid Entity) :
    Sturdy root b { vault with entities } := ⟨h.dataDir, h.usable, h.legible, h.known⟩

/-! ### Changing the catalog -/

/-- A store with another catalog. -/
theorem Sturdy.setCatalog (h : vault.Sturdy root b) {id : Nat} {catalog : Catalog}
    (hlegible : catalog.Legible) :
    Sturdy root b { vault with disk := vault.disk.setCatalog id catalog } := by
  constructor
  case dataDir => exact h.dataDir
  case usable => exact Site.usable_of_nodes h.usable rfl
  case legible =>
    intro other hother
    obtain hsame | ⟨-, hnew⟩ := catalog_setCatalog vault.disk id catalog other
    · exact hsame ▸ h.legible other hother
    · change ((vault.disk.setCatalog id catalog).catalog other).Legible
      rw [hnew]
      exact hlegible
  case known =>
    intro other hother
    simpa [Disk.setCatalog] using h.known other hother

theorem yields_modifyCatalog {id : Nat} (hid : vault.catalog = some id) (change : Catalog → Catalog)
    {post : Unit → Vault → Prop} {fail : Failure → Vault → Prop} :
    Yields (modifyCatalog change) vault post fail ↔ post () { vault with
      disk := vault.disk.setCatalog id (change (vault.disk.catalog id)) } := by
  rw [modifyCatalog, yields_modify]
  split
  · rename_i hnone
    rw [hid] at hnone
    cases hnone
  · rename_i other hother
    rw [hid, Option.some.injEq] at hother
    rw [hother]

/-- Recording an entity leaves everything but the entry that it makes. -/
theorem record_notes (h : vault.Sturdy root b) (guid : Guid) (entity : Entity)
    (producer : Option Guid) :
    Yields (record guid entity producer) vault
      (fun _ after => vault.Enriches root b after ∧ after.disk.nodes = vault.disk.nodes ∧
        ∀ id, vault.catalog = some id → ∃ producer, (after.disk.catalog id).entity? guid
          = .ok (some ⟨guid, entity.kind, UInt64.ofNat entity.size, producer⟩))
      fun _ _ => False := by
  simp only [record, yields_bind, yields_get]
  cases hcatalog : vault.catalog with
  | none =>
    simp only [records?, hcatalog, Option.map_none]
    exact ⟨h.enriches, rfl, nofun⟩
  | some id =>
    have hrecord (producer : Option Guid) : Yields (modifyCatalog (·.recordEntity
          ⟨guid, entity.kind, UInt64.ofNat entity.size, producer⟩)) vault
        (fun _ after => vault.Enriches root b after ∧ after.disk.nodes = vault.disk.nodes ∧
          ∀ other, some id = some other → ∃ producer, (after.disk.catalog other).entity? guid
            = .ok (some ⟨guid, entity.kind, UInt64.ofNat entity.size, producer⟩))
        fun _ _ => False := by
      rw [yields_modifyCatalog hcatalog]
      let entry : Catalog.Entry := ⟨guid, entity.kind, UInt64.ofNat entity.size, producer⟩
      have hlegible := (h.legible id hcatalog).recordEntity entry
      refine ⟨⟨h.setCatalog hlegible, rfl, rfl, rfl, fun _ _ => spares_of_nodes rfl,
        fun _ hx => .inl ⟨hx, spares_of_nodes rfl⟩, fun other => ?_, rfl⟩, rfl, ?_⟩
      · obtain hsame | ⟨rfl, hnew⟩ := catalog_setCatalog vault.disk id
          ((vault.disk.catalog id).recordEntity entry) other
        · rw [hsame]
        · rw [hnew]
          rfl
      · rintro _ ⟨⟩
        refine ⟨producer, ?_⟩
        rw [catalog_setCatalog_self (h.known id hcatalog)]
        exact Catalog.entity?_recordEntity_self _ entry
    simp only [records?, hcatalog, Option.map_some]
    cases producer with
    | some producer => exact hrecord _
    | none =>
      simp only [yields_bind]
      obtain ⟨found, hfound⟩ := h.legible id hcatalog guid
      rw [hfound]
      exact hrecord _

/-! ### Saving one entity -/

/-- The copy of an entity is complete and recorded. A copy that was complete before is kept. -/
structure Saves (root : String) (b : Address) (guid : Guid) (entity : Entity) (stored : Stored)
    (vault after : Vault) : Prop where
  enriches : vault.Enriches root b after
  contains : EntityDirectory.contains after.disk root guid
  holds : EntityDirectory.contains vault.disk root guid = false → after.disk.Holds b guid stored
  entry : ∀ id, vault.catalog = some id → ∃ producer, (after.disk.catalog id).entity? guid
    = .ok (some ⟨guid, entity.kind, UInt64.ofNat entity.size, producer⟩)

/-- A copy is kept, or else written. -/
private theorem write_enriches (h : vault.Sturdy root b) (hguid : stored.manifest.guid = guid)
    (hentity : vault.get? guid = some entity)
    (hencode : Ordered.encode guid entity vault.registered = .ok stored) :
    Yields (EntityDirectory.write root stored) vault.disk
      (fun _ disk => vault.Enriches root b { vault with disk } ∧
        EntityDirectory.contains disk root guid ∧
        (EntityDirectory.contains vault.disk root guid = false → disk.Holds b guid stored))
      fun _ _ => False := by
  cases hcontains : EntityDirectory.contains vault.disk root guid with
  | true =>
    apply (write_of_contains (hguid ▸ hcontains)).mono ?_ fun _ _ hfalse => hfalse
    rintro - disk rfl
    exact ⟨h.enriches, hcontains, nofun⟩
  | false =>
    apply ((write_of_not_contains h.usable hguid hcontains).and
      (write_catalogs root stored vault.disk)).mono ?_ fun _ _ hfalse => hfalse.1
    rintro - disk ⟨hwrote, hcatalogs⟩
    have hcatalog (id : Nat) : disk.catalog id = vault.disk.catalog id := by
      rw [Disk.catalog, Disk.catalog, hcatalogs]
    have hsturdy : Sturdy root b { vault with disk } :=
      ⟨h.dataDir, hwrote.usable, fun id hid => (hcatalog id).symm ▸ h.legible id hid,
        fun id hid => hcatalogs.symm ▸ h.known id hid⟩
    refine ⟨⟨hsturdy, rfl, rfl, rfl, fun x hx => ?_, fun x hx => ?_,
      fun id => by rw [hcatalog id], hwrote.database⟩, hwrote.contains, fun _ => hwrote.holds⟩
    · apply hwrote.spares x
      rintro rfl
      rw [hcontains] at hx
      cases hx
    · by_cases heq : x = guid
      · subst heq
        exact .inr ⟨hwrote.contains, entity, stored, hentity, hencode, hwrote.holds⟩
      · exact .inl ⟨hwrote.marks x heq hx, hwrote.spares x heq⟩

private theorem write_and_record_saves (h : vault.Sturdy root b)
    (hguid : stored.manifest.guid = guid) (hentity : vault.get? guid = some entity)
    (hencode : Ordered.encode guid entity vault.registered = .ok stored)
    (producer : Option Guid) :
    Yields (do
        let path ← write (← get).settings.dataDir stored
        record guid entity producer
        return path) vault
      (fun _ after => vault.Saves root b guid entity stored after) fun _ _ => False := by
  simp only [yields_bind, yields_get, h.dataDir, write, onDisk_yields_iff, yields_pure]
  apply (write_enriches h hguid hentity hencode).mono ?_ fun _ _ hfalse => hfalse
  rintro - disk ⟨henriches, hcontains, hholds⟩
  apply (record_notes henriches.sturdy guid entity producer).mono ?_ fun _ _ hfalse => hfalse
  rintro - after ⟨hrecorded, hnodes, hentry⟩
  have hnode (a : Address) : after.disk.node? a = disk.node? a := by rw [node?, node?, hnodes]
  constructor
  case enriches => exact henriches.trans h hrecorded
  case contains => exact hrecorded.contains henriches.sturdy hcontains
  case holds =>
    intro hnew
    obtain ⟨hmanifest, hrows⟩ := hholds hnew
    exact ⟨(hnode _).trans hmanifest, (hnode _).trans hrows⟩
  case entry => exact hentry

/-- A vertex set is saved without looking at anything else. -/
theorem persist_vertexSet_saves (h : vault.Sturdy root b) {set : VertexSet}
    (hset : vault.get? guid = some (.vertexSet set)) (fuel : Nat) (producer : Option Guid) :
    Yields (persistWithin (fuel + 1) guid producer) vault
      (fun _ after => vault.Saves root b guid (.vertexSet set) (setCopy guid set) after)
      fun _ _ => False := by
  rw [persistWithin, yields_bind]
  apply (require_of_registered hset).mono ?_ fun _ _ hfalse => hfalse.elim
  rintro found after ⟨rfl, rfl⟩
  exact write_and_record_saves h rfl hset rfl producer

/-! ### Saving what refers to vertex sets -/

private theorem persistReference_enriches (h : vault.Sturdy root b) {set : VertexSet}
    (hset : vault.get? r = some (.vertexSet set)) (fuel : Nat) :
    Yields (persistReference (fuel + 1) r) vault
      (fun _ after => vault.Enriches root b after ∧ EntityDirectory.contains after.disk root r)
      fun _ _ => False := by
  simp only [persistReference, yields_bind, yields_get, hasPersisted, h.dataDir]
  cases hcontains : EntityDirectory.contains vault.disk root r with
  | true => exact ⟨h.enriches, hcontains⟩
  | false =>
    simp only [Bool.not_false, if_true, yields_bind, yields_pure]
    apply (persist_vertexSet_saves h hset fuel none).mono ?_ fun _ _ hfalse => hfalse
    exact fun _ after hafter => ⟨hafter.enriches, hafter.contains⟩

private theorem persistReferences_enriches {references : List Guid} (h : vault.Sturdy root b)
    (hsets : ∀ r ∈ references, ∃ set, vault.get? r = some (.vertexSet set)) (fuel : Nat) :
    Yields (references.forM (persistReference (fuel + 1))) vault
      (fun _ after => vault.Enriches root b after ∧
        ∀ r ∈ references, EntityDirectory.contains after.disk root r) fun _ _ => False := by
  have hround : ∀ r ∈ references, ∀ now, vault.Enriches root b now →
      Yields (persistReference (fuel + 1) r) now
        (fun _ after => vault.Enriches root b after ∧ EntityDirectory.contains after.disk root r ∧
          ∀ x, EntityDirectory.contains now.disk root x → EntityDirectory.contains after.disk root x)
        fun _ _ => False := by
    intro r hr now hnow
    obtain ⟨set, hset⟩ := hsets r hr
    have hstill : now.get? r = some (.vertexSet set) := by
      rw [get?, hnow.entities]
      exact hset
    apply (persistReference_enriches hnow.sturdy hstill fuel).mono ?_ fun _ _ hfalse => hfalse
    rintro - after ⟨hafter, hcontains⟩
    exact ⟨hnow.trans h hafter, hcontains, fun _ => hafter.contains hnow.sturdy⟩
  exact yields_forM_done hround h.enriches

/-- What is in memory along with the vertex sets that it refers to is persisted along with them, and
nothing that was complete is lost. -/
theorem persistFrom_saves (h : vault.Sturdy root b) (hentity : vault.get? guid = some entity)
    (hsets : ∀ r ∈ entity.references, ∃ set, vault.get? r = some (.vertexSet set))
    (producer : Option Guid) :
    Yields (persistFrom guid producer) vault
      (fun _ after => vault.Enriches root b after ∧
        ∀ x ∈ guid :: entity.references, after.hasPersisted x) fun _ _ => False := by
  have hsize : 0 < vault.entities.size :=
    List.length_pos_of_mem (SortedMap.get?_eq_some_iff.1 hentity)
  have hfuel : vault.entities.size = vault.entities.size - 1 + 1 := by omega
  rw [persistFrom, yields_bind, yields_get, persistWithin, yields_bind]
  apply (require_of_registered hentity).mono ?_ fun _ _ hfalse => hfalse.elim
  rintro found start ⟨rfl, rfl⟩
  rw [yields_bind]
  have hreferences := persistReferences_enriches h hsets (start.entities.size - 1)
  rw [← hfuel] at hreferences
  apply hreferences.mono ?_ fun _ _ hfalse => hfalse
  rintro - between ⟨hbetween, hpersisted⟩
  have hresolved : ∀ r ∈ found.references, ∃ set, between.registered r = .ok set := by
    intro r hr
    obtain ⟨set, hset⟩ := hsets r hr
    refine ⟨set, registered_eq_ok_iff.2 ?_⟩
    rw [get?, hbetween.entities]
    exact hset
  have hstill : between.get? guid = some found := by
    rw [get?, hbetween.entities]
    exact hentity
  obtain ⟨stored, hstored, hguid⟩ := Ordered.exists_encode_of_resolved hresolved guid
  have hencode := Ordered.follows_encode (follows_registered between) guid found stored hstored
  rw [yields_bind]
  apply (hencode.yields between rfl).mono ?_ fun _ _ hfalse => hfalse.2
  rintro _ _ ⟨rfl, rfl⟩
  apply (write_and_record_saves hbetween.sturdy hguid hstill hstored producer).mono ?_
    fun _ _ hfalse => hfalse
  intro _ after hafter
  refine ⟨hbetween.trans h hafter.enriches, fun x hx => ?_⟩
  rw [hasPersisted, hafter.enriches.sturdy.dataDir]
  cases List.mem_cons.1 hx with
  | inl heq => exact heq ▸ hafter.contains
  | inr hr => exact hafter.enriches.contains hbetween.sturdy (hpersisted x hr)

end Vault

/-! ### Opening a sturdy store -/

namespace Disk

/-- The catalog below a base that is opened: the one that is there, or else a new one. -/
structure FindsCatalog (b : Address) (disk : Disk) (id : Nat) (after : Disk) : Prop where
  node : after.node? (catalogAddress b) = some (.database id)
  catalogs : disk.node? (catalogAddress b) = some (.database id) ∧
      after.catalogs = disk.catalogs ∨
    disk.node? (catalogAddress b) = none ∧ id = disk.catalogs.length ∧
      after.catalogs = disk.catalogs ++ [Catalog.empty]

/-- A catalog below a base, if there is one, is among those of the disk. -/
def KnowsCatalog (b : Address) (disk : Disk) : Prop :=
  ∀ id, disk.node? (catalogAddress b) = some (.database id) → id < disk.catalogs.length

variable {b : Address} {disk after : Disk} {id : Nat}

theorem FindsCatalog.lt_length (h : FindsCatalog b disk id after) (hknown : disk.KnowsCatalog b) :
    id < after.catalogs.length := by
  rcases h.catalogs with ⟨hnode, hcatalogs⟩ | ⟨-, hid, hcatalogs⟩
  · rw [hcatalogs]
    exact hknown id hnode
  · rw [hcatalogs, hid, List.length_append]
    exact Nat.lt_add_one _

end Disk

namespace Site

attribute [local irreducible] createAll

variable {site : Site} {disk : Disk} {settings : Settings}

theorem Ready.openCatalog_finds (h : site.Ready none disk)
    (hreaches : disk.Reaches site.dataDir site.dataBase) :
    Yields (openCatalog (Path.join site.dataDir "catalog.redb")) disk
      (fun id after => FindsCatalog site.dataBase disk id after) fun _ _ => False := by
  have hresolve : disk.resolve (Path.join site.dataDir "catalog.redb")
      = .ok (catalogAddress site.dataBase) :=
    (resolve_join_eq_ok_iff plain_catalogName).2
      ⟨h.data.admissible_join plain_catalogName (by decide), site.dataBase, hreaches, rfl⟩
  simp only [openCatalog, yields_bind, yields_get, hresolve, Except.mapError, yields_ofExcept_ok]
  cases hnode : disk.node? (catalogAddress site.dataBase) with
  | none =>
    refine ⟨?_, .inr ⟨hnode, rfl, rfl⟩⟩
    exact node?_put_self { disk with catalogs := disk.catalogs ++ [Catalog.empty] } _
      (isPermanent_catalogAddress site.dataBase)
  | some node =>
    obtain ⟨id, rfl, -, hheld⟩ := h.database node hnode
    have hfree : id ∉ disk.held := by
      intro hmem
      cases hheld hmem
    simp only [if_neg hfree]
    exact ⟨hnode, .inl ⟨hnode, rfl⟩⟩

theorem Ready.open_finds (h : site.Ready none disk) (hdata : settings.dataDir = site.dataDir)
    (hcatalog : settings.catalog = true) :
    Yields (Vault.open settings) disk
      (fun vault after => ∃ id, vault.catalog = some id ∧ FindsCatalog site.dataBase disk id after)
      fun _ _ => False := by
  unfold Vault.open
  rw [if_pos hcatalog]
  simp only [yields_bind, yields_adaptExcept, yields_get, yields_pure, Settings.catalogPath, hdata]
  apply (h.data.createParent_yields plain_catalogName).mono ?_ fun _ _ hfalse => hfalse
  rintro - grown ⟨hgrows, hreaches⟩
  -- making directories above a root changes nothing below it
  have hsame : grown.node? (catalogAddress site.dataBase)
      = disk.node? (catalogAddress site.dataBase) := by
    cases hgrows.node (catalogAddress site.dataBase) with
    | inl heq => exact heq
    | inr hnew => exact absurd (inside_catalogAddress _) hnew.1.1
  apply ((h.grows hgrows).openCatalog_finds hreaches).mono ?_ fun _ _ hfalse => hfalse
  rintro id after ⟨hnode, hcatalogs⟩
  rw [hsame, hgrows.catalogs] at hcatalogs
  exact ⟨id, rfl, hnode, hcatalogs⟩

/-- Over ready roots a store is opened that can save. -/
theorem Ready.open_sturdy (h : site.Ready none disk) (hdata : settings.dataDir = site.dataDir)
    (hknown : disk.KnowsCatalog site.dataBase) :
    Yields (Vault.open settings) disk
      (fun vault after => vault = ⟨settings, SortedMap.empty, vault.catalog, after⟩ ∧
        site.Ready vault.catalog after ∧ vault.Sturdy site.dataDir site.dataBase)
      fun _ _ => False := by
  have hids : Yields (Vault.open settings) disk
      (fun vault after => ∀ id, vault.catalog = some id → id < after.catalogs.length)
      fun _ _ => False := by
    cases hcatalog : settings.catalog with
    | true =>
      apply (h.open_finds hdata hcatalog).mono ?_ fun _ _ hfalse => hfalse
      rintro vault after ⟨id, hid, hfinds⟩ _ hother
      rw [hid, Option.some.injEq] at hother
      exact hother ▸ hfinds.lt_length hknown
    | false =>
      simp only [Vault.open, hcatalog, Bool.false_eq_true, if_false]
      exact nofun
  apply ((h.open_yields hdata).and hids).mono ?_ fun _ _ hfalse => hfalse.1
  rintro vault after ⟨⟨hvault, hready, -⟩, hlt⟩
  refine ⟨hvault, hready, ?_⟩
  rw [hvault]
  exact ⟨hdata, hready.data.mono fun _ hx => hx.1, hready.legible, hlt⟩

theorem Fresh.ready (h : site.Fresh disk) : site.Ready none disk :=
  ready_of_empty h.apart h.data h.unordered h.empty

/-- Over fresh roots a store is opened that can save, and that has nothing yet. -/
theorem Fresh.open_sturdy (h : site.Fresh disk) (hdata : settings.dataDir = site.dataDir) :
    Yields (Vault.open settings) disk
      (fun vault _ => vault.settings = settings ∧ vault.entities = SortedMap.empty ∧
        vault.Sturdy site.dataDir site.dataBase ∧ ∀ guid, ¬ Marked site.dataBase guid vault.disk)
      fun _ _ => False := by
  have hknown : disk.KnowsCatalog site.dataBase := by
    intro id hnode
    rw [h.empty _ (inside_catalogAddress _)] at hnode
    cases hnode
  have hkept : KeptAs (fun _ _ => False) site.dataBase disk := by
    rintro guid ⟨node, hnode, -⟩
    rw [h.empty _ (inside_text _ guid _)] at hnode
    cases hnode
  apply ((h.ready.open_sturdy hdata hknown).and (h.ready.open_yields hdata)).mono ?_
    fun _ _ hfalse => hfalse.1
  rintro vault after ⟨⟨hvault, -, hsturdy⟩, -, -, hprepared⟩
  have hdisk : vault.disk = after := by rw [hvault]
  refine ⟨by rw [hvault], by rw [hvault], hsturdy, fun guid hmarked => ?_⟩
  rw [hdisk] at hmarked
  obtain ⟨-, hfalse, -⟩ := hkept.prepared hprepared guid hmarked
  exact hfalse

end Site

end GraphVault
